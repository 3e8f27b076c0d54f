import SqlLayout.Proofs.Segments

/-! What the tokens of a text are printed as, in a dialect whose operators leave comments and colons
alone. A token that is no literal is printed without quotes, without newlines, and so that no comment
begins in it. A literal is printed as it is read: quoted text, with at most one prefix before it. -/

namespace SqlLayout
set_option autoImplicit false

/-- The laws of the built-in dialect. -/
structure Dialect.Strict (d : Dialect) : Prop where
  tame : d.Tame
  signs : ∀ op ∈ ["-", "/", "*", "&", "="], op ∈ d.operators
  uncommented : ∀ op ∈ d.operators, Uncommented op.toList
  colons : ∀ op ∈ d.operators, op.toList.head? = some ':' → op = "::" ∨ op = ":="
  prefixes : ∀ op ∈ d.operators, Text.upper op ∉ d.literalPrefixes

instance (text : List Char) : Decidable (Uncommented text) :=
  inferInstanceAs (Decidable (text.IsChain _))

theorem Dialect.builtin_strict : builtin.Strict where
  tame := @ofRegistries_tame [] (by simp)
  signs := by decide +kernel
  uncommented := by decide +kernel
  colons := by decide +kernel
  prefixes := by decide +kernel

/-- Text that is printed for a token other than a literal. -/
structure Inert (text : List Char) : Prop where
  ne_nil : text ≠ []
  uncommented : Uncommented text
  unquoted : Unquoted text
  unbroken : '\n' ∉ text

theorem inert_of_all {text : List Char} (hne : text ≠ [])
    (h : ∀ c ∈ text, Text.isWordChar c = true ∨ c = ' ') : Inert text := by
  have hc : ∀ c ∈ text, c ≠ '-' ∧ c ≠ '/' ∧ Lexeme.isQuote c = false ∧ c ≠ '\n' := by
    intro c hc
    rcases h c hc with hword | rfl
    · have hcode := Text.forall_codes (p := fun c => !Text.isWordChar c ||
        (c ≠ '-' && c ≠ '/' && !Lexeme.isQuote c && c ≠ '\n')) (by decide +kernel)
        (Text.ascii_of_isWordChar hword)
      simpa [hword, and_assoc] using hcode
    · decide
  refine ⟨hne, ?_, fun c hmem => (hc c hmem).2.2.1, fun hmem => (hc '\n' hmem).2.2.2 rfl⟩
  clear h hne
  induction text with
  | nil => exact .nil
  | cons c text ih =>
    refine List.isChain_cons.mpr ⟨?_, ih fun e he => hc e (List.mem_cons_of_mem c he)⟩
    intro e _
    have hfirst := hc c List.mem_cons_self
    exact ⟨fun h => hfirst.1 h.1, fun h => hfirst.2.1 h.1⟩

theorem inert_of_isVocabulary {word : String} (h : isVocabulary word = true) :
    Inert word.toList := by
  simp only [isVocabulary, Lexeme.isPlainWord, Bool.and_eq_true, decide_eq_true_eq] at h
  apply inert_of_all
  · intro hnil
    rw [hnil] at h
    simp at h
  · exact fun c hc => Or.inl (List.all_eq_true.mp h.1.2 c hc)

namespace Lexeme
variable {ops : List (List Char)}

/-- An operator follows inside a word only as a star behind a point, or as the sign of an exponent. -/
def Follows (ops : List (List Char)) (a b : Char) : Prop :=
  [b] ∈ ops → (a = '.' ∧ b = '*') ∨ ((a = 'e' ∨ a = 'E') ∧ (b = '-' ∨ b = '+'))

theorem follows_of_continues {a b : Char} {backwards rest : List Char}
    (h : continues ops (a :: backwards) b rest = true) :
    isSeparator b = false ∧ Follows ops a b := by
  unfold continues at h
  split at h
  · cases h
  · rename_i hseparator
    refine ⟨by simpa using hseparator, ?_⟩
    intro hop
    split at h
    · rename_i hstar
      simp only [Bool.and_eq_true, decide_eq_true_eq, List.head?_cons, Option.some.injEq] at hstar
      exact Or.inl ⟨hstar.2, hstar.1⟩
    · split at h
      · rename_i hsign
        simp only [isExponentHead, Bool.and_eq_true, Bool.or_eq_true, decide_eq_true_eq] at hsign
        exact Or.inr ⟨hsign.1.2.1.1.1, hsign.1.1⟩
      · simp only [Bool.and_eq_true, beq_iff_eq] at h
        have hle := Operator.length_le_longest hop (show [b] <+: b :: rest from ⟨rest, rfl⟩)
        simp only [List.length_cons, List.length_nil] at hle
        omega

theorem splitWord_follows {a : Char} {backwards word rest : List Char}
    (h : splitWord ops (a :: backwards) (word ++ rest) = (word, rest)) :
    (∀ c ∈ word, isSeparator c = false) ∧ (a :: word).IsChain (Follows ops) := by
  induction word generalizing a backwards with
  | nil => exact ⟨by simp, .singleton a⟩
  | cons b word ih =>
    rw [List.cons_append, splitWord] at h
    by_cases hgo : continues ops (a :: backwards) b (word ++ rest) = true
    · rw [if_pos hgo] at h
      obtain ⟨hseparator, hfollows⟩ := follows_of_continues hgo
      obtain ⟨hall, hchain⟩ := @ih b (a :: backwards) (by simpa [Prod.ext_iff] using h)
      refine ⟨?_, List.isChain_cons_cons.mpr ⟨hfollows, hchain⟩⟩
      intro c hc
      rcases List.mem_cons.mp hc with rfl | hc
      · exact hseparator
      · exact hall c hc
    · rw [if_neg hgo] at h
      simp at h

theorem ampersand_not_mem {a : Char} {word : List Char} (h : (a :: word).IsChain (Follows ops))
    (hop : ['&'] ∈ ops) : '&' ∉ word := by
  induction word generalizing a with
  | nil => simp
  | cons b word ih =>
    obtain ⟨hfollows, hmore⟩ := List.isChain_cons_cons.mp h
    rw [List.mem_cons, not_or]
    refine ⟨?_, ih hmore⟩
    rintro rfl
    rcases hfollows hop with ⟨-, h⟩ | ⟨-, h | h⟩ <;> cases h

theorem Stands.word_chars {text rest : List Char} (h : Stands ops .word text rest) :
    (∀ c ∈ text, isSeparator c = false) ∧ text.IsChain (Follows ops) ∧
      ∀ c ∈ text.head?, [c] ∉ ops := by
  obtain ⟨c, word, rfl, hwhite, -, hcut⟩ := h
  rcases cut_cases hcut with ⟨_, h, _⟩ | ⟨_, _, _, h, _⟩ | ⟨_, _, h, _⟩ |
    ⟨hquote, hmark, -, hzero, hsplit⟩
  · cases h
  · cases h
  · cases h
  · obtain ⟨hall, hchain⟩ := splitWord_follows hsplit
    refine ⟨?_, hchain, ?_⟩
    · intro e he
      rcases List.mem_cons.mp he with rfl | he
      · simp [isSeparator, hwhite, hquote, hmark]
      · exact hall e he
    · intro e he hop
      obtain rfl : c = e := by simpa using he
      have hnil := Operator.longest_eq_zero_iff.mp hzero _ hop ⟨word ++ rest, rfl⟩
      cases hnil

end Lexeme

/-- The operators of a dialect, as the scanner takes them. -/
abbrev Dialect.ops (d : Dialect) : List (List Char) := d.operators.map String.toList

section Texts
variable {d : Dialect} (strict : d.Strict)
include strict

theorem Dialect.Strict.sign {c : Char} (h : c ∈ ['-', '/', '*', '&', '=']) : [c] ∈ d.ops := by
  refine List.mem_map.mpr ⟨String.ofList [c], ?_, String.toList_ofList⟩
  apply strict.signs
  simp only [List.mem_cons, List.not_mem_nil, or_false] at h ⊢
  rcases h with rfl | rfl | rfl | rfl | rfl <;> simp

theorem inert_of_word {text rest : List Char} (h : Lexeme.Stands d.ops .word text rest) :
    Inert text ∧ '&' ∉ text := by
  obtain ⟨hseparators, hchain, hhead⟩ := h.word_chars
  refine ⟨⟨h.ne_nil, ?_, ?_, ?_⟩, ?_⟩
  · refine hchain.imp ?_
    intro a b hfollows
    constructor
    · rintro ⟨rfl, rfl⟩
      rcases hfollows (strict.sign (by simp)) with h | h
      · cases h.2
      · rcases h.1 with h | h <;> cases h
    · rintro ⟨rfl, rfl⟩
      rcases hfollows (strict.sign (by simp)) with h | h
      · cases h.1
      · rcases h.1 with h | h <;> cases h
  · intro c hc
    have hseparator := hseparators c hc
    simp only [Lexeme.isSeparator, Bool.or_eq_false_iff] at hseparator
    exact hseparator.1.2
  · intro hmem
    have hseparator := hseparators _ hmem
    revert hseparator
    decide
  · obtain ⟨c, word, rfl⟩ := List.exists_cons_of_ne_nil h.ne_nil
    have hop := strict.sign (show '&' ∈ ['-', '/', '*', '&', '='] by simp)
    rw [List.mem_cons, not_or]
    refine ⟨?_, Lexeme.ampersand_not_mem hchain hop⟩
    rintro rfl
    exact hhead '&' rfl hop

end Texts

/-- A prefix of a literal. -/
inductive Affix (d : Dialect) : List Char → Prop
  | letter {c : Char} (hstands : Lexeme.Stands d.ops .word [c] [])
      (hmem : Text.upper (String.ofList [c]) ∈ d.literalPrefixes)
      (hsize : (Text.upper (String.ofList [c])).utf8ByteSize ≤ (String.ofList [c]).utf8ByteSize) :
      Affix d [c]
  | unicode {u : Char} (hu : u = 'u' ∨ u = 'U') (hmem : "U&" ∈ d.literalPrefixes) :
      Affix d [u, '&']

theorem Affix.inert {d : Dialect} (strict : d.Strict) {affix : List Char} (h : Affix d affix) :
    Inert affix ∧ ':' ∉ affix := by
  cases h with
  | @letter c hstands hmem =>
    refine ⟨(inert_of_word strict hstands).1, ?_⟩
    rw [List.mem_singleton]
    rintro rfl
    rw [show Text.upper (String.ofList [':']) = ":" by decide] at hmem
    rcases strict.tame.literalPrefixes _ hmem with h | ⟨-, h⟩ <;> revert h <;> decide
  | unicode hu hmem =>
    rcases hu with rfl | rfl <;>
      exact ⟨⟨by simp, by decide, by simp [Unquoted, Lexeme.isQuote], by simp⟩, by simp⟩

namespace Token

/-- What is known of a token that was read. -/
structure Known (o : Options) (d : Dialect) (t : Token) : Prop where
  inert : t.kind ≠ .string → Inert (t.spelling o).toList
  mark : t.kind.isPunctuation = true →
    ∃ c, (t.spelling o).toList = [c] ∧ Lexeme.isSeparator c = true ∧ Lexeme.isQuote c = false
  operator : t.kind = .operator → t.text.toList ∈ d.ops
  literal : t.kind = .string → ∃ affix body, t.text.toList = affix ++ body ∧
    Lexeme.Stands d.ops .quoted body [] ∧ (affix = [] ∨ Affix d affix)

theorem Known.of_literal {o : Options} {d : Dialect} {t : Token} (hkind : t.kind = .string)
    (h : ∃ affix body, t.text.toList = affix ++ body ∧ Lexeme.Stands d.ops .quoted body [] ∧
      (affix = [] ∨ Affix d affix)) : t.Known o d := by
  refine ⟨fun hne => absurd hkind hne, ?_, ?_, fun _ => h⟩
  · intro hmark
    rw [hkind] at hmark
    cases hmark
  · intro hoperator
    rw [hkind] at hoperator
    cases hoperator

section Known
variable {d : Dialect} (strict : d.Strict) (o : Options)
include strict

theorem inert_ofWord {word : String} {rest : List Char}
    (h : Lexeme.Stands d.ops .word word.toList rest) (beforeParen : Bool) :
    Inert ((ofWord d word beforeParen).spelling o).toList := by
  by_cases hident : (ofWord d word beforeParen).kind = .ident
  · rw [ofWord_ident hident]
    exact (inert_of_word strict h).1
  · exact inert_of_isVocabulary (ofWord_spelling strict.tame o hident).1

omit strict in
theorem inert_compound {words : List String} (h : words ∈ Vocabulary.compoundTypes) :
    Inert ((Token.mk .type (" ".intercalate words)).spelling o).toList := by
  obtain ⟨first, more, rfl, hspelling, hwords⟩ := compound_spelling o h
  have hchars : ∀ w ∈ first :: more, isVocabulary (cased o w) = true ∧
      ∀ c ∈ (cased o w).toList, Text.isWordChar c = true := by
    intro w hw
    obtain ⟨hvocabulary, -⟩ := cased_vocabulary o (hwords w hw).1
    refine ⟨hvocabulary, ?_⟩
    simp only [isVocabulary, Lexeme.isPlainWord, Bool.and_eq_true] at hvocabulary
    exact List.all_eq_true.mp hvocabulary.1.2
  rw [hspelling, String.toList_ofList]
  apply inert_of_all
  · have hfirst := inert_of_isVocabulary (hchars first List.mem_cons_self).1
    exact fun hnil => hfirst.ne_nil (List.append_eq_nil_iff.mp hnil).1
  · intro c hc
    rcases List.mem_append.mp hc with hc | hc
    · exact Or.inl ((hchars first List.mem_cons_self).2 c hc)
    · obtain ⟨w, hw, hc⟩ := List.mem_flatMap.mp hc
      rcases List.mem_cons.mp hc with rfl | hc
      · exact Or.inr rfl
      · exact Or.inl ((hchars w (List.mem_cons_of_mem first hw)).2 c hc)

omit strict in
theorem inert_mark {kind : TokenKind} {text : List Char}
    (h : Lexeme.Stands d.ops (.mark kind) text []) :
    ∃ c, text = [c] ∧ Lexeme.isSeparator c = true ∧ Lexeme.isQuote c = false ∧ Inert text := by
  obtain ⟨c, word, rfl, hwhite, -, hcut⟩ := h
  rcases Lexeme.cut_cases hcut with ⟨_, h, _⟩ | ⟨hquote, k, hmark, -, rfl, -⟩ | ⟨_, _, h, _⟩ |
    ⟨_, _, h, _⟩
  · cases h
  · refine ⟨c, rfl, by simp [Lexeme.isSeparator, hmark], hquote, by simp, .singleton c, ?_, ?_⟩
    · simpa [Unquoted] using hquote
    · rw [List.mem_singleton]
      rintro rfl
      cases hwhite
  · cases h
  · cases h

theorem inert_operator {text : List Char} (h : text ∈ d.ops) (hne : text ≠ []) : Inert text := by
  refine ⟨hne, ?_, ?_, ?_⟩
  · obtain ⟨op, hop, rfl⟩ := List.mem_map.mp h
    exact strict.uncommented op hop
  · intro c hc
    have hbare := (strict.tame.operators.bare text h c hc).1
    simp only [Lexeme.isSeparator, Bool.or_eq_false_iff] at hbare
    exact hbare.1.2
  · intro hc
    have hbare := (strict.tame.operators.bare text h _ hc).1
    revert hbare
    decide

/-- What an item is printed as, and where its text stands. -/
theorem made_item {ls : List Lexeme}
    (h : ∀ l ∈ ls, ∃ rest, Lexeme.Stands d.ops l.shape l.text.toList rest) {s : Spaced}
    (hs : Made d ls s) :
    (s.token.kind ≠ .string → Inert (s.token.spelling o).toList) ∧
      (s.token.kind = .ident ∨ s.token.kind.shape ≠ .word →
        Lexeme.Stands d.ops s.token.kind.shape s.token.text.toList []) := by
  rcases hs with ⟨words, hwords, htoken⟩ | ⟨l, hl, rest, htoken⟩
  · rw [htoken]
    exact ⟨fun _ => inert_compound o hwords, by simp [TokenKind.shape, TokenKind.isPunctuation]⟩
  · obtain ⟨more, hstands⟩ := h l hl
    have halone := hstands.alone strict.tame.operators
    rw [htoken]
    unfold ofLexeme
    cases hshape : l.shape with
    | quoted =>
      rw [hshape] at halone
      exact ⟨by simp, fun _ => halone⟩
    | operator =>
      rw [hshape] at halone
      exact ⟨fun _ => inert_operator strict halone.mem_operators halone.ne_nil, fun _ => halone⟩
    | mark kind =>
      rw [hshape] at halone
      have hmark := TokenKind.shape_mark halone.isPunctuation.1
      obtain ⟨c, -, -, -, hinert⟩ := inert_mark halone
      refine ⟨fun _ => ?_, fun _ => ?_⟩
      · simpa [spelling, hmark.2] using hinert
      · rw [hmark.1]
        exact halone
    | word =>
      rw [hshape] at halone
      refine ⟨fun _ => inert_ofWord strict o halone _, ?_⟩
      rintro (hident | hother)
      · rw [ofWord_ident hident]
        exact halone
      · exact absurd (ofWord_shape d l.text _) hother

/-- A word that is a prefix is one character. -/
theorem single_of_upper {text : String} (hmem : Text.upper text ∈ d.literalPrefixes)
    (hstands : Lexeme.Stands d.ops .word text.toList []) : ∃ c, text.toList = [c] := by
  have hlist : (Text.upper text).toList = text.toList.flatMap Text.upperChar := by
    rw [Text.upper, String.toList_ofList]
  rcases strict.tame.literalPrefixes _ hmem with hunicode | ⟨hlength, -⟩
  · exfalso
    have hamp : '&' ∈ text.toList.flatMap Text.upperChar := by
      rw [← hlist, hunicode]
      decide
    obtain ⟨c, hc, hamp⟩ := List.mem_flatMap.mp hamp
    rw [Text.eq_of_mem_upperChar (by decide) hamp] at hc
    exact (inert_of_word strict hstands).2 hc
  · rw [hlist] at hlength
    exact Text.single_of_flatMap_upperChar hlength

/-- The items of a prefix spell one. -/
theorem affix_of_prefixes {chain : List Spaced} {literal : Spaced} (h : Prefixes d chain literal)
    (hstands : ∀ s ∈ chain, isPrefixPart s.token = true →
      Lexeme.Stands d.ops s.token.kind.shape s.token.text.toList []) :
    Affix d (joinedText "" chain).toList := by
  obtain ⟨p, hp, hcompletes⟩ := h.completes
  have hne : ∀ s ∈ chain, s.token.text ≠ "" := by
    intro s hs hnil
    apply (hstands s hs (hcompletes.parts s hs)).ne_nil
    rw [hnil]
    rfl
  rcases h.shape strict.tame hne with ⟨s, rfl⟩ | ⟨u, a, rfl, hu, ha⟩
  · cases hcompletes with
    | last hpart hsize hupper =>
      have halone := hstands s List.mem_cons_self hpart
      rw [String.empty_append] at hsize hupper
      have hjoined : joinedText "" [s] = s.token.text := String.empty_append
      rw [hjoined]
      simp only [isPrefixPart, Bool.or_eq_true, decide_eq_true_eq] at hpart
      rcases hpart with hident | hoperator
      · rw [hident] at halone
        obtain ⟨c, hc⟩ := single_of_upper strict (hupper ▸ hp) halone
        have htext : s.token.text = String.ofList [c] := by rw [← hc, String.ofList_toList]
        rw [← hupper, htext] at hp hsize
        rw [hc] at halone ⊢
        exact .letter halone hp hsize
      · rw [hoperator] at halone
        obtain ⟨op, hop, hlist⟩ := List.mem_map.mp halone.mem_operators
        obtain rfl := String.toList_injective hlist
        exact absurd (hupper ▸ hp) (strict.prefixes _ hop)
  · have hupper := hcompletes.upper
    have hjoined : joinedText "" [u, a] = u.token.text ++ "&" := by simp [joinedText, ha]
    rw [hjoined] at hupper ⊢
    rcases hu with hu | hu
    · rw [hu, show Text.upper ("U" ++ "&") = "U&" by decide] at hupper
      rw [hu]
      exact .unicode (Or.inr rfl) (hupper ▸ hp)
    · rw [hu, show Text.upper ("u" ++ "&") = "U&" by decide] at hupper
      rw [hu]
      exact .unicode (Or.inl rfl) (hupper ▸ hp)

theorem known_of_tokenize {source : String} {ts : List Token}
    (h : tokenize d source = .ok (ts ++ [Token.eof])) : ∀ t ∈ ts, t.Known o d := by
  obtain ⟨scraps, tail, hlegible, -, hts⟩ := tokenize_ok h
  have hitem := fun s (hs : s ∈ classify d (Scrap.lexemes false true scraps)) =>
    made_item strict o (hlegible.stands false true) (classify_mem hs)
  have hpart : ∀ s ∈ classify d (Scrap.lexemes false true scraps),
      isPrefixPart s.token = true → Lexeme.Stands d.ops s.token.kind.shape s.token.text.toList [] := by
    intro s hs hpart
    apply (hitem s hs).2
    simp only [isPrefixPart, Bool.or_eq_true, decide_eq_true_eq] at hpart
    exact hpart.imp id fun hoperator => by simp [hoperator, TokenKind.shape]
  have hquoted : ∀ s ∈ classify d (Scrap.lexemes false true scraps), s.token.kind = .string →
      Lexeme.Stands d.ops .quoted s.token.text.toList [] := by
    intro s hs hkind
    have halone := (hitem s hs).2 (Or.inr (by simp [hkind, TokenKind.shape]))
    rwa [hkind] at halone
  intro t ht
  rw [List.append_cancel_right hts] at ht
  rcases resolve_mem ht with ⟨chain, literal, hchain, hliteral, hprefixes, rfl⟩ | ⟨s, hs, rest, rfl⟩
  · apply Known.of_literal rfl
    refine ⟨_, _, String.toList_append, hquoted literal hliteral hprefixes.kind, Or.inr ?_⟩
    exact affix_of_prefixes strict hprefixes fun s hs => hpart s (hchain hs)
  · constructor
    · intro hkind
      rw [spelling_kindInContext]
      exact (hitem s hs).1 fun hstring => hkind ((kindInContext_string s rest).mpr hstring)
    · intro hkind
      rw [spelling_kindInContext]
      have hsame : kindInContext s rest = s.token.kind := by
        rcases kindInContext_cases s rest with h | ⟨-, h⟩ | ⟨-, h⟩ | ⟨-, h⟩
        · exact h
        all_goals simp [h, TokenKind.isPunctuation] at hkind
      have hpunctuation : s.token.kind.isPunctuation = true := hsame ▸ hkind
      have hmark := TokenKind.shape_mark hpunctuation
      have halone := (hitem s hs).2 (Or.inr (by simp [hmark.1]))
      rw [hmark.1] at halone
      obtain ⟨c, htext, hseparator, hquote, -⟩ := inert_mark halone
      exact ⟨c, by simpa [spelling, hmark.2] using htext, hseparator, hquote⟩
    · intro hkind
      have hsame : s.token.kind = .operator := by
        rcases kindInContext_cases s rest with h | ⟨-, h⟩ | ⟨-, h⟩ | ⟨-, h⟩
        · exact h.symm.trans hkind
        all_goals simp [h] at hkind
      have halone := hpart s hs (by simp [isPrefixPart, hsame])
      rw [hsame] at halone
      exact halone.mem_operators
    · intro hkind
      refine ⟨[], s.token.text.toList, rfl, ?_, Or.inl rfl⟩
      exact hquoted s hs ((kindInContext_string s rest).mp hkind)

end Known

/-- The quoted part of a literal. -/
def body (t : Token) : List Char := t.text.toList.dropWhile (!Lexeme.isQuote ·)

theorem isOpen_eq (t : Token) : t.isOpen = (t.kind = .string && !Lexeme.isClosed t.body) := rfl

theorem body_of_append {t : Token} {affix text : List Char} (h : t.text.toList = affix ++ text)
    (haffix : Unquoted affix) (hquote : text.head?.any Lexeme.isQuote = true) : t.body = text := by
  rw [body, h, List.dropWhile_append_of_pos (by simpa [Unquoted] using haffix)]
  cases text with
  | nil => simp at hquote
  | cons c cs =>
    have hc : Lexeme.isQuote c = true := by simpa using hquote
    simp [hc]

section Closed
variable {d : Dialect}

theorem head_of_quoted {ops : List (List Char)} {text rest : List Char}
    (h : Lexeme.Stands ops .quoted text rest) : text.head?.any Lexeme.isQuote = true := by
  obtain ⟨c, cs, rfl, hquote, -⟩ := Scrap.stands_head h
  simpa using hquote rfl

theorem isOpen_ofLexeme {l : Lexeme} {rest : List Lexeme} {more : List Char}
    (hstands : Lexeme.Stands d.ops l.shape l.text.toList more)
    (h : l.shape = .quoted → Lexeme.isClosed l.text.toList = true) :
    (ofLexeme d l rest).isOpen = false := by
  unfold ofLexeme
  split
  · rename_i hquoted
    rw [hquoted] at hstands
    have hbody : (Token.mk .string l.text).body = l.text.toList :=
      body_of_append (List.nil_append _).symm (by simp [Unquoted]) (head_of_quoted hstands)
    rw [isOpen_eq, hbody, h hquoted]
    rfl
  · rfl
  · rename_i kind hmark
    rw [hmark] at hstands
    have hpunctuation := hstands.isPunctuation.1
    revert hpunctuation
    cases kind <;> simp [TokenKind.isPunctuation, isOpen]
  · have hshape := ofWord_shape d l.text (startsWithParen rest)
    rw [isOpen_eq]
    have hkind : (ofWord d l.text (startsWithParen rest)).kind ≠ .string := by
      intro hkind
      rw [hkind] at hshape
      cases hshape
    simp [hkind]

/-- Among items, only the last may be a literal without end. -/
theorem classify_closed {ls : List Lexeme}
    (hstands : ∀ l ∈ ls, ∃ rest, Lexeme.Stands d.ops l.shape l.text.toList rest)
    (h : ls.IsChain fun l _ => l.shape = .quoted → Lexeme.isClosed l.text.toList = true) :
    (classify d ls).IsChain fun s _ => s.token.isOpen = false := by
  induction ls using classify_induction with
  | nil =>
    rw [classify]
    exact .nil
  | compound l ls words taken rest hword hfound _ htaken _ ih =>
    rw [classify_some hword hfound]
    rw [htaken] at h hstands
    refine List.isChain_cons.mpr ⟨fun _ _ => rfl, ih ?_ h.right_of_append⟩
    exact fun k hk => hstands k (List.mem_append_right taken hk)
  | lone l ls hnone ih =>
    rw [classify_none hnone]
    rw [List.isChain_cons] at h
    refine List.isChain_cons.mpr ⟨?_, ih (fun k hk => hstands k (List.mem_cons_of_mem l hk)) h.2⟩
    intro s hs
    obtain ⟨rest, hl⟩ := hstands l List.mem_cons_self
    apply isOpen_ofLexeme hl
    cases ls with
    | nil =>
      rw [classify.eq_def] at hs
      simp at hs
    | cons k ks => exact h.1 k rfl

theorem unquoted_joinedText (tame : d.Tame) {chain : List Spaced} {literal : Spaced}
    (h : Prefixes d chain literal) : Unquoted (joinedText "" chain).toList := by
  intro c hc
  rw [Unjoined.toList_joinedText, String.toList_empty, List.nil_append] at hc
  obtain ⟨s, hs, hc⟩ := List.mem_flatMap.mp hc
  rw [Bool.eq_false_iff]
  exact fun hquote => h.not_mem tame (Or.inr hquote) s hs hc

theorem resolve_closed (tame : d.Tame) {items : List Spaced}
    (hquoted : ∀ s ∈ items, s.token.kind = .string →
      s.token.text.toList.head?.any Lexeme.isQuote = true)
    (h : items.IsChain fun s _ => s.token.isOpen = false) :
    (resolve d items).IsChain fun t _ => t.isOpen = false := by
  have hnil : resolve d [] = [] := by rw [resolve.eq_def]
  induction items using resolve_induction d with
  | nil => exact hnil ▸ .nil
  | joined chain literal rest hprefixes hresolve ih =>
    rw [hresolve]
    have hmore := h.right_of_append
    rw [List.isChain_cons] at hmore
    refine List.isChain_cons.mpr ⟨?_, ih (fun r hr => hquoted r (by simp [hr])) hmore.2⟩
    intro t ht
    have hliteral : literal.token.isOpen = false := by
      cases rest with
      | nil =>
        rw [hnil] at ht
        simp at ht
      | cons r rest => exact hmore.1 r rfl
    have hhead := hquoted literal (by simp) hprefixes.kind
    have hbody : literal.token.body = literal.token.text.toList :=
      body_of_append (List.nil_append _).symm (by simp [Unquoted]) hhead
    have hjoined : (Token.mk .string (joinedText "" chain ++ literal.token.text)).body =
        literal.token.text.toList :=
      body_of_append String.toList_append (unquoted_joinedText tame hprefixes) hhead
    rw [isOpen_eq, hprefixes.kind, hbody] at hliteral
    rw [isOpen_eq, hjoined]
    exact hliteral
  | lone s items hnone hresolve ih =>
    rw [hresolve]
    rw [List.isChain_cons] at h
    refine List.isChain_cons.mpr ⟨?_, ih (fun r hr => hquoted r (List.mem_cons_of_mem s hr)) h.2⟩
    intro t ht
    have hsame : (Token.mk (kindInContext s items) s.token.text).isOpen = s.token.isOpen := by
      simp [isOpen, kindInContext_string]
    rw [hsame]
    cases items with
    | nil =>
      rw [hnil] at ht
      simp at ht
    | cons r items => exact h.1 r rfl

/-- Among tokens, only the last may be a literal without end. -/
theorem closed_of_tokenize (tame : d.Tame) {source : String} {ts : List Token}
    (h : tokenize d source = .ok (ts ++ [Token.eof])) : ts.IsChain fun t _ => t.isOpen = false := by
  obtain ⟨scraps, tail, hlegible, -, hts⟩ := tokenize_ok h
  obtain ⟨halone, hclosed⟩ := hlegible.lexemes_alone tame.operators false true
  rw [List.append_cancel_right hts]
  apply resolve_closed tame
  · exact fun s hs => (Respelled.classify_raw tame halone s hs).quote
  · exact classify_closed (fun l hl => ⟨[], halone l hl⟩) hclosed

end Closed

section Padded
variable {o : Options} {d : Dialect} {t : Token}

theorem plain_affix (strict : d.Strict) {affix : List Char} (h : affix = [] ∨ Affix d affix) :
    Unquoted affix ∧ '\n' ∉ affix := by
  rcases h with rfl | h
  · simp [Unquoted]
  · have hinert := (h.inert strict).1
    exact ⟨hinert.unquoted, hinert.unbroken⟩

theorem Known.parts (strict : d.Strict) (h : t.Known o d) (hkind : t.kind = .string) :
    ∃ affix, t.text.toList = affix ++ t.body ∧ Lexeme.Stands d.ops .quoted t.body [] ∧
      (affix = [] ∨ Affix d affix) := by
  obtain ⟨affix, text, htext, hstands, haffix⟩ := h.literal hkind
  rw [body_of_append htext (plain_affix strict haffix).1 (head_of_quoted hstands)]
  exact ⟨affix, htext, hstands, haffix⟩

/-- Lines that begin inside a literal begin inside its quoted part. -/
theorem Known.unbroken_iff (strict : d.Strict) (h : t.Known o d) (hkind : t.kind = .string) :
    Unbroken t.text.toList ↔ Unbroken t.body := by
  obtain ⟨affix, htext, -, haffix⟩ := h.parts strict hkind
  have hbreak := (plain_affix strict haffix).2
  have hchain : affix.IsChain fun a b => a = '\n' → b = '\n' := by
    clear htext haffix
    induction affix with
    | nil => exact .nil
    | cons c affix ih =>
      refine List.isChain_cons.mpr ⟨?_, ih fun hmem => hbreak (List.mem_cons_of_mem c hmem)⟩
      intro b _ hnewline
      exact absurd (hnewline ▸ List.mem_cons_self) hbreak
  rw [htext]
  refine ⟨fun h => h.right_of_append, fun h => List.isChain_append.mpr ⟨hchain, h, ?_⟩⟩
  intro a ha b _ hnewline
  exact absurd (hnewline ▸ List.mem_of_getLast? ha) hbreak

theorem Known.lined (strict : d.Strict) (h : t.Known o d) : t.Lined o := by
  have hhead : ∀ {text : List Char}, text ≠ [] → '\n' ∉ text → ∀ more,
      ∃ c cs, text ++ more = c :: cs ∧ c ≠ '\n' := by
    intro text hne hnot more
    obtain ⟨c, cs, rfl⟩ := List.exists_cons_of_ne_nil hne
    exact ⟨c, cs ++ more, rfl, fun hc => hnot (by simp [hc])⟩
  refine ⟨?_, fun hkind => (h.inert hkind).unbroken⟩
  by_cases hkind : t.kind = .string
  · obtain ⟨affix, htext, hstands, haffix⟩ := h.parts strict hkind
    have hspelling : t.spelling o = t.text := by simp [spelling, hkind, TokenKind.isVerbatim]
    rw [hspelling, htext]
    rcases haffix with rfl | haffix
    · obtain ⟨c, cs, hbody, hquote, -⟩ := Scrap.stands_head hstands
      refine ⟨c, cs, hbody, ?_⟩
      rintro rfl
      cases hquote rfl
    · have hinert := (haffix.inert strict).1
      exact hhead hinert.ne_nil hinert.unbroken _
  · have hinert := h.inert hkind
    simpa using hhead hinert.ne_nil hinert.unbroken []

theorem stands_quoted_iff {ops : List (List Char)} {q : Char} {word : List Char} :
    Lexeme.Stands ops .quoted (q :: word) [] ↔
      Lexeme.isQuote q = true ∧ Quoted.split q word = (word, []) := by
  constructor
  · rintro ⟨c, cs, hcs, -, -, hcut⟩
    obtain ⟨rfl, rfl⟩ := List.cons.inj hcs
    rw [List.append_nil] at hcut
    rcases Lexeme.cut_cases hcut with ⟨hq, -, hsplit⟩ | ⟨_, _, _, h, _⟩ | ⟨_, _, h, _⟩ | ⟨_, _, h, _⟩
    · exact ⟨hq, hsplit⟩
    · cases h
    · cases h
    · cases h
  · rintro ⟨hq, hsplit⟩
    have hne : Text.isWhitespace q = false ∧ q ≠ '-' ∧ q ≠ '/' := by
      simp only [Lexeme.isQuote, Bool.or_eq_true, decide_eq_true_eq] at hq
      rcases hq with rfl | rfl <;> decide
    refine ⟨q, word, rfl, hne.1, by simp [Lexeme.startsComment, hne.2], ?_⟩
    rw [List.append_nil]
    exact Lexeme.cut_quoted hq hsplit

theorem stands_padFrom {ops : List (List Char)} {text : List Char} (n : Nat)
    (h : Lexeme.Stands ops .quoted text []) :
    Lexeme.Stands ops .quoted (padFrom n false text) [] ∧
      Lexeme.isClosed (padFrom n false text) = Lexeme.isClosed text := by
  obtain ⟨q, word, rfl, -⟩ := Scrap.stands_head h
  obtain ⟨hq, hsplit⟩ := stands_quoted_iff.mp h
  have hne : q ≠ ' ' ∧ q ≠ '\n' := by
    simp only [Lexeme.isQuote, Bool.or_eq_true, decide_eq_true_eq] at hq
    rcases hq with rfl | rfl <;> decide
  have hpad : padFrom n false (q :: word) = q :: padFrom n false word := by
    simp [padFrom, hne.2]
  obtain ⟨hwhole, hcloses⟩ := Quoted.padsWhole hne.1 hne.2 n hsplit false
  rw [hpad]
  exact ⟨stands_quoted_iff.mpr ⟨hq, hwhole⟩, hcloses⟩

theorem dropWhile_padFrom (n : Nat) (atStart : Bool) (text : List Char) :
    (padFrom n atStart text).dropWhile (!Lexeme.isQuote ·) =
      padFrom n false (text.dropWhile (!Lexeme.isQuote ·)) := by
  induction text generalizing atStart with
  | nil => rfl
  | cons c text ih =>
    have hspaces : ∀ more, (List.replicate n ' ' ++ more).dropWhile (!Lexeme.isQuote ·) =
        more.dropWhile (!Lexeme.isQuote ·) := by
      intro more
      apply List.dropWhile_append_of_pos
      intro e he
      rw [List.eq_of_mem_replicate he]
      rfl
    by_cases hquote : Lexeme.isQuote c = true
    · have hc : c ≠ '\n' := by
        rintro rfl
        cases hquote
      cases atStart <;> simp [padFrom, hc, hquote, hspaces]
    · rw [padFrom]
      split
      · simp [hquote, ih]
      · split <;> simp [hquote, ih, hspaces]

theorem body_padded (n : Nat) (hkind : t.kind = .string) :
    (t.padded n).body = padFrom n false t.body := by
  rw [body, Token.padded, if_pos hkind, String.toList_ofList]
  exact dropWhile_padFrom n false _

theorem Known.padded (strict : d.Strict) (h : t.Known o d) (n : Nat) :
    (t.padded n).Known o d ∧ (t.padded n).isOpen = t.isOpen := by
  by_cases hkind : t.kind = .string
  · obtain ⟨affix, htext, hstands, haffix⟩ := h.parts strict hkind
    have hinert := (plain_affix strict haffix).2
    obtain ⟨hpadded, hclosed⟩ := stands_padFrom n hstands
    have hstart : startsLine false affix = false := by
      unfold startsLine
      split
      · rename_i c hc
        have hmem := List.mem_of_getLast? hc
        simpa using fun hnewline : c = '\n' => hinert (hnewline ▸ hmem)
      · rfl
    have htext' : (t.padded n).text.toList = affix ++ padFrom n false t.body := by
      rw [Token.padded, if_pos hkind, String.toList_ofList, htext, padFrom_append,
        padFrom_eq_self n hinert, hstart]
    have hkind' : (t.padded n).kind = .string := by rw [kind_padded, hkind]
    refine ⟨.of_literal hkind' ⟨affix, _, htext', hpadded, haffix⟩, ?_⟩
    rw [isOpen_eq, isOpen_eq, hkind', hkind, body_padded n hkind, hclosed]
  · have hsame : t.padded n = t := by rw [Token.padded, if_neg hkind]
    rw [hsame]
    exact ⟨h, rfl⟩

end Padded

end Token
end SqlLayout
