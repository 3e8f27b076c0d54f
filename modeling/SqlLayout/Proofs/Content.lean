import SqlLayout.Proofs.Formatting
import SqlLayout.Proofs.Visible

/-! The content of an ASCII text survives every stage: cutting, looking up, joining, laying out, coloring
and padding. So formatting such a text fails only when its tokens or statements cannot be read. The
dialect may be any whose function names are in ASCII. -/

namespace SqlLayout
set_option autoImplicit false

/-- What a text without escape sequences adds to a content. -/
def folded (text : List Char) : List Char :=
  (text.filter (!Text.isWhitespace ·)).flatMap Text.lowerChar

section Folded
variable {text : List Char}

theorem folded_append (x y : List Char) : folded (x ++ y) = folded x ++ folded y := by
  simp [folded]

theorem folded_flatMap {α : Type} (l : List α) (f : α → List Char) :
    folded (l.flatMap f) = l.flatMap fun a => folded (f a) := by
  induction l with
  | nil => rfl
  | cons a l ih => rw [List.flatMap_cons, folded_append, ih, List.flatMap_cons]

theorem folded_blank (h : Scrap.isBlank text) : folded text = [] := by
  have hnone : text.filter (!Text.isWhitespace ·) = [] := by
    rw [List.filter_eq_nil_iff]
    intro c hc
    simp [h c hc]
  rw [folded, hnone, List.flatMap_nil]

theorem folded_ascii (h : Text.isAscii text = true) :
    folded text = (text.filter (!Text.isWhitespace ·)).map Text.asciiLower := by
  unfold folded
  rw [List.map_eq_flatMap]
  apply List.flatMap_congr
  intro c hc
  have hascii := List.all_eq_true.mp h c (List.mem_of_mem_filter hc)
  exact Text.lowerChar_ascii (by simpa using hascii)

theorem folded_map {f : Char → Char}
    (hf : ∀ c : Char, c.toNat < 128 → (f c).toNat < 128 ∧
      Text.isWhitespace (f c) = Text.isWhitespace c ∧ Text.asciiLower (f c) = Text.asciiLower c)
    (h : Text.isAscii text = true) : folded (text.map f) = folded text := by
  have hcode : ∀ c ∈ text, c.toNat < 128 := by simpa [Text.isAscii] using h
  have hmap : Text.isAscii (text.map f) = true := by
    rw [Text.isAscii, List.all_map, List.all_eq_true]
    intro c hc
    simpa using (hf c (hcode c hc)).1
  rw [folded_ascii hmap, folded_ascii h, List.filter_map, List.map_map]
  have hfilter : text.filter ((!Text.isWhitespace ·) ∘ f) = text.filter (!Text.isWhitespace ·) := by
    apply List.filter_congr
    intro c hc
    simp [(hf c (hcode c hc)).2.1]
  rw [hfilter]
  apply List.map_congr_left
  intro c hc
  exact (hf c (hcode c (List.mem_of_mem_filter hc))).2.2

theorem isWhitespace_case {c : Char} (h : c.toNat < 128) :
    Text.isWhitespace (Text.asciiUpper c) = Text.isWhitespace c ∧
      Text.isWhitespace (Text.asciiLower c) = Text.isWhitespace c := by
  have hcode := Text.forall_codes (p := fun c =>
    Text.isWhitespace (Text.asciiUpper c) = Text.isWhitespace c &&
      Text.isWhitespace (Text.asciiLower c) = Text.isWhitespace c) (by decide +kernel) h
  simpa using hcode

theorem folded_upper {s : String} (h : Text.isAscii s.toList = true) :
    folded (Text.upper s).toList = folded s.toList := by
  rw [Text.toList_upper h]
  apply folded_map _ h
  intro c hc
  have hcase := Text.ascii_case hc
  exact ⟨hcase.2.2.2.2.2, (isWhitespace_case hc).1, hcase.2.2.1⟩

theorem folded_lower {s : String} (h : Text.isAscii s.toList = true) :
    folded (Text.lower s).toList = folded s.toList := by
  rw [Text.toList_lower h]
  apply folded_map _ h
  intro c hc
  have hcase := Text.ascii_case hc
  exact ⟨hcase.2.2.2.2.1, (isWhitespace_case hc).2, hcase.2.2.2.1⟩

theorem isAscii_upper {s : String} (h : Text.isAscii s.toList = true) :
    Text.isAscii (Text.upper s).toList = true := by
  rw [Text.toList_upper h, Text.isAscii, List.all_map, List.all_eq_true]
  intro c hc
  have hcode : c.toNat < 128 := by simpa using List.all_eq_true.mp h c hc
  simpa using (Text.ascii_case hcode).2.2.2.2.2

theorem folded_of_upper {s t : String} (hs : Text.isAscii s.toList = true)
    (ht : Text.isAscii t.toList = true) (h : Text.upper s = Text.upper t) :
    folded s.toList = folded t.toList := by
  rw [← folded_upper hs, h, folded_upper ht]

theorem escape_mem_folded (h : '\x1b' ∈ text) : '\x1b' ∈ folded text := by
  rw [folded, List.mem_flatMap]
  exact ⟨'\x1b', List.mem_filter.mpr ⟨h, by decide⟩, by decide⟩

theorem escape_not_mem_folded (hascii : Text.isAscii text = true) (h : '\x1b' ∉ text) :
    '\x1b' ∉ folded text := by
  rw [folded_ascii hascii]
  intro hmem
  obtain ⟨c, hc, hlower⟩ := List.mem_map.mp hmem
  rw [Text.eq_of_asciiLower (by decide) hlower] at hc
  exact h (List.mem_of_mem_filter hc)

end Folded

/-- The functions of the dialect are printed in ASCII, with the letters that they are found by. -/
def Dialect.PrintsAscii (d : Dialect) : Prop :=
  ∀ e ∈ d.spellings, Text.isAscii e.2.toList = true ∧ Text.upper e.2 = e.1

theorem Dialect.PrintsAscii.register {d : Dialect} (hd : d.PrintsAscii) {r : Registry}
    (hr : ∀ f ∈ r.functions, Text.isAscii f.toList = true) : (d.register r).PrintsAscii := by
  unfold Dialect.register
  dsimp only
  split
  · exact hd
  · intro e he
    simp only [List.mem_append, List.mem_reverse, List.mem_map] at he
    rcases he with ⟨f, hf, rfl⟩ | he
    · exact ⟨hr f hf, rfl⟩
    · exact hd e he

theorem Dialect.ofRegistries_printsAscii {rs : List Registry}
    (hrs : ∀ r ∈ rs, ∀ f ∈ r.functions, Text.isAscii f.toList = true) :
    (ofRegistries rs).PrintsAscii := by
  have hbuiltin : builtin.PrintsAscii := by
    apply PrintsAscii.register
    · simp [PrintsAscii]
    · intro f hf
      exact isAscii_of_isVocabulary (postgres_tame.words f (by simp [hf]))
  have hfold : ∀ d : Dialect, d.PrintsAscii → (rs.foldl Dialect.register d).PrintsAscii := by
    induction rs with
    | nil => exact fun d hd => hd
    | cons r rs ih =>
      intro d hd
      exact ih (fun s hs => hrs s (List.mem_cons_of_mem r hs)) _
        (hd.register (hrs r List.mem_cons_self))
  exact hfold builtin hbuiltin

namespace Token
variable {d : Dialect} (o : Options)

/-- What a list of tokens adds to a content. -/
def printed (ts : List Token) : List Char := ts.flatMap fun t => folded (t.spelling o).toList

theorem printed_cons (t : Token) (ts : List Token) :
    printed o (t :: ts) = folded (t.spelling o).toList ++ printed o ts := by
  rw [printed, List.flatMap_cons, printed]

theorem printed_append (ts us : List Token) :
    printed o (ts ++ us) = printed o ts ++ printed o us := by
  rw [printed, List.flatMap_append, printed, printed]

theorem folded_cased {text : String} (h : Text.isAscii text.toList = true) :
    folded (cased o text).toList = folded text.toList := by
  unfold cased
  split
  · exact folded_lower h
  · rfl

theorem folded_canonicalReserved (text : String) :
    folded ((Vocabulary.canonicalReserved? text).getD text).toList = folded text.toList := by
  unfold Vocabulary.canonicalReserved?
  split
  · rename_i htext
    subst htext
    decide +kernel
  · split
    · rename_i htext
      subst htext
      decide +kernel
    · split
      · rename_i htext
        subst htext
        decide +kernel
      · rfl

/-- A word keeps its content, whatever the dialect takes it for. -/
theorem folded_ofWord (hd : d.PrintsAscii) {word : String} (h : Text.isAscii word.toList = true)
    (beforeParen : Bool) :
    folded ((ofWord d word beforeParen).spelling o).toList = folded word.toList := by
  have hupper : folded (cased o (Text.upper word)).toList = folded word.toList := by
    rw [folded_cased o (isAscii_upper h), folded_upper h]
  unfold ofWord
  dsimp only
  split
  · exact hupper
  · split
    · cases hspelling : d.functionSpelling? (Text.upper word) with
      | none => exact hupper
      | some f =>
        obtain ⟨hf, hsame⟩ := hd _ (mem_of_lookup hspelling)
        exact (folded_cased o hf).trans (folded_of_upper hf h hsame)
    · exact hupper
    · exact (folded_canonicalReserved _).trans (folded_upper h)
    · rfl

theorem folded_ofLexeme (hd : d.PrintsAscii) {l : Lexeme} {rest : List Lexeme}
    (h : Text.isAscii l.text.toList = true)
    (hmark : ∀ kind, l.shape = .mark kind → kind.isPunctuation = true) :
    folded ((ofLexeme d l rest).spelling o).toList = folded l.text.toList := by
  unfold ofLexeme
  split
  · rfl
  · rfl
  · rename_i kind hkind
    have hverbatim : kind.isVerbatim = true := by
      have hpunctuation := hmark kind hkind
      revert hpunctuation
      cases kind <;> simp [TokenKind.isVerbatim, TokenKind.isPunctuation]
    simp [spelling, hverbatim]
  · exact folded_ofWord o hd h _

theorem folded_compound {words : List String} {taken : List Lexeme}
    (hmem : words ∈ Vocabulary.compoundTypes) (htaken : List.Forall₂ Spells words taken)
    (h : ∀ l ∈ taken, Text.isAscii l.text.toList = true) :
    folded ((Token.mk .type (" ".intercalate words)).spelling o).toList =
      taken.flatMap fun l => folded l.text.toList := by
  obtain ⟨first, more, rfl, hspelling, hwords⟩ := compound_spelling o hmem
  have hspace : folded [' '] = [] := by decide
  have hspelled : folded ((Token.mk .type (" ".intercalate (first :: more))).spelling o).toList =
      (first :: more).flatMap fun w => folded w.toList := by
    rw [hspelling, String.toList_ofList, folded_append, folded_flatMap, List.flatMap_cons,
      folded_cased o (isAscii_of_isVocabulary (hwords first List.mem_cons_self).1)]
    congr 1
    apply List.flatMap_congr
    intro w hw
    rw [← List.singleton_append, folded_append, hspace, List.nil_append,
      folded_cased o (isAscii_of_isVocabulary (hwords w (List.mem_cons_of_mem first hw)).1)]
  rw [hspelled]
  clear hspelling hspelled hmem
  generalize first :: more = words at hwords htaken
  induction htaken with
  | nil => rfl
  | @cons w l words taken hl _ ih =>
    have hupper := upper_of_spells (hwords w List.mem_cons_self).1 hl.2
    rw [List.flatMap_cons, List.flatMap_cons,
      ih (fun l hl => h l (List.mem_cons_of_mem _ hl))
        (fun w hw => hwords w (List.mem_cons_of_mem _ hw)),
      ← hupper, folded_upper (h l List.mem_cons_self)]

theorem printed_classify (hd : d.PrintsAscii) {ls : List Lexeme}
    (h : ∀ l ∈ ls, Text.isAscii l.text.toList = true)
    (hmark : ∀ l ∈ ls, ∀ kind, l.shape = .mark kind → kind.isPunctuation = true) :
    printed o ((classify d ls).map Spaced.token) = ls.flatMap fun l => folded l.text.toList := by
  induction ls using classify_induction with
  | nil => simp [classify, printed]
  | compound l ls words taken rest hword hfound hmem hls htaken ih =>
    rw [classify_some hword hfound]
    rw [hls] at h hmark ⊢
    rw [List.map_cons, printed_cons, List.flatMap_append,
      folded_compound o hmem htaken fun l hl => h l (List.mem_append_left rest hl),
      ih (fun l hl => h l (List.mem_append_right taken hl))
        fun l hl => hmark l (List.mem_append_right taken hl)]
  | lone l ls hnone ih =>
    rw [classify_none hnone, List.map_cons, printed_cons, List.flatMap_cons,
      folded_ofLexeme o hd (h l List.mem_cons_self) (hmark l List.mem_cons_self),
      ih (fun l hl => h l (List.mem_cons_of_mem _ hl))
        fun l hl => hmark l (List.mem_cons_of_mem _ hl)]

theorem printed_parts {chain : List Spaced} (h : ∀ s ∈ chain, isPrefixPart s.token = true) :
    printed o (chain.map Spaced.token) = folded (joinedText "" chain).toList := by
  rw [Unjoined.toList_joinedText, String.toList_empty, List.nil_append, folded_flatMap, printed,
    List.flatMap_map]
  apply List.flatMap_congr
  intro s hs
  rw [Unjoined.spelling_part (Or.inl (h s hs))]

theorem printed_resolve (items : List Spaced) :
    printed o (resolve d items) = printed o (items.map Spaced.token) := by
  induction items using resolve_induction d with
  | nil => rw [resolve.eq_def, List.map_nil]
  | joined chain literal rest hprefixes hresolve ih =>
    obtain ⟨p, -, hcompletes⟩ := hprefixes.completes
    rw [hresolve, List.map_append, List.map_cons, printed_cons, printed_append, printed_cons, ih,
      printed_parts o hcompletes.parts, Unjoined.spelling_part (Or.inr rfl),
      Unjoined.spelling_part (Or.inr hprefixes.kind), String.toList_append, folded_append,
      List.append_assoc]
  | lone s items hnone hresolve ih =>
    rw [hresolve, printed_cons, spelling_kindInContext, List.map_cons, printed_cons, ih]

end Token

theorem Scrap.Legible.folded {ops : List (List Char)} {scraps : List Scrap} {tail : List Char}
    (h : Legible ops scraps tail) (afterNewline spaced : Bool) :
    (lexemes afterNewline spaced scraps).flatMap (fun l => folded l.text.toList) =
      folded (flat scraps ++ tail) := by
  induction h generalizing afterNewline spaced with
  | nil htail =>
    rw [flat_nil, List.nil_append, folded_blank htail]
    rfl
  | cons hgap _ _ ih =>
    rw [lexemes, List.flatMap_cons, ih, String.toList_ofList, flat_cons, List.append_assoc,
      List.append_assoc, folded_append _ (_ ++ (_ ++ _)), folded_append _ (_ ++ _),
      folded_blank hgap, List.nil_append]

theorem Scrap.mem_flat_of_lexemes {scraps : List Scrap} {afterNewline spaced : Bool} {l : Lexeme}
    (hl : l ∈ lexemes afterNewline spaced scraps) {c : Char} (hc : c ∈ l.text.toList) :
    c ∈ flat scraps := by
  induction scraps generalizing afterNewline spaced with
  | nil => simp [lexemes] at hl
  | cons s scraps ih =>
    rw [flat_cons, List.mem_append]
    rcases List.mem_cons.mp hl with rfl | hl
    · rw [String.toList_ofList] at hc
      exact Or.inl (List.mem_append_right _ hc)
    · exact Or.inr (ih hl)

/-- The tokens of an ASCII text have its content. -/
theorem printed_tokenize (o : Options) {d : Dialect} (hd : d.PrintsAscii) {source : String}
    {ts : List Token} (hascii : Text.isAscii source.toList = true)
    (h : tokenize d source = .ok (ts ++ [Token.eof])) :
    Token.printed o ts = folded source.toList := by
  obtain ⟨scraps, tail, hlegible, htext, hts⟩ := tokenize_ok h
  rw [List.append_cancel_right hts, Token.printed_resolve,
    Token.printed_classify o hd ?_ (hlegible.isPunctuation false true), htext]
  · exact hlegible.folded false true
  · intro l hl
    rw [Text.isAscii, List.all_eq_true] at hascii ⊢
    intro c hc
    apply hascii
    rw [htext]
    exact List.mem_append_left tail (Scrap.mem_flat_of_lexemes hl hc)

section Draft
variable {o : Options}

theorem visible_render {t : Token} (h : '\x1b' ∉ (t.spelling o).toList) (rest : List Char) :
    visible false ((t.render o).toList ++ rest) =
      (t.spelling o).toList.filter (!Text.isWhitespace ·) ++ visible false rest := by
  unfold Token.render
  split
  · split
    · rw [String.toList_ofList]
      exact visible_paint _ h rest
    · exact visible_plain h rest
  · exact visible_plain h rest

/-- The text of a layout shows its tokens, with colors or without, and leaves no escape sequence
open. -/
theorem visible_text {draft : Draft} (hblank : ∀ p ∈ draft.pieces, Scrap.isBlank p.gap)
    (hpending : Scrap.isBlank draft.pending)
    (hesc : ∀ p ∈ draft.pieces, '\x1b' ∉ (p.token.spelling o).toList) (rest : List Char) :
    visible false (draft.text o ++ rest) =
      (draft.tokens.flatMap fun t => (t.spelling o).toList.filter (!Text.isWhitespace ·)) ++
        visible false rest := by
  rw [Draft.text, Draft.tokens, List.append_assoc]
  have hrev : ∀ p ∈ draft.pieces.reverse,
      Scrap.isBlank p.gap ∧ '\x1b' ∉ (p.token.spelling o).toList :=
    fun p hp => ⟨hblank p (List.mem_reverse.mp hp), hesc p (List.mem_reverse.mp hp)⟩
  generalize draft.pieces.reverse = pieces at hrev
  induction pieces with
  | nil =>
    rw [List.flatMap_nil, List.nil_append, visible_blank hpending]
    rfl
  | cons p pieces ih =>
    obtain ⟨hgap, hspelling⟩ := hrev p List.mem_cons_self
    rw [List.flatMap_cons, List.append_assoc, List.append_assoc, visible_blank hgap,
      visible_render hspelling, ih fun q hq => hrev q (List.mem_cons_of_mem p hq), List.map_cons,
      List.flatMap_cons, List.append_assoc]

theorem visible_layout {ts : List Token} {statements : List Statement} (heof : ∀ t ∈ ts, t.kind ≠ .eof)
    (hparse : Statement.parse (ts ++ [Token.eof]) = .ok statements)
    (hesc : ∀ t ∈ ts, '\x1b' ∉ (t.spelling o).toList) (rest : List Char) :
    visible false ((Layout.draft o.commaStyle statements).text o ++ rest) =
      (ts.flatMap fun t => (t.spelling o).toList.filter (!Text.isWhitespace ·)) ++
        visible false rest := by
  have hlaid := parse_laidOut o heof hparse
  have htokens : (Layout.draft o.commaStyle statements).tokens = ts := hlaid.tokens
  rw [visible_text (fun p hp => hlaid.blank p (List.mem_reverse.mpr hp)) hlaid.tail, htokens]
  intro p hp
  apply hesc
  rw [← hlaid.tokens]
  exact List.mem_map_of_mem (List.mem_reverse.mpr hp)

end Draft

theorem content_of_shown {text shown : List Char}
    (h : ∀ rest, visible false (text ++ rest) = shown ++ visible false rest) :
    content text = shown.flatMap Text.lowerChar := by
  have halone := h []
  rw [List.append_nil, visible_nil, List.append_nil] at halone
  rw [content_eq, halone]

theorem content_append {text shown : List Char}
    (h : ∀ rest, visible false (text ++ rest) = shown ++ visible false rest) (more : List Char) :
    content (text ++ more) = content text ++ content more := by
  rw [content_of_shown h, content_eq, h, List.flatMap_append, content_eq]

theorem content_plain {text : List Char} (h : '\x1b' ∉ text) : content text = folded text :=
  content_of_shown (visible_plain h)

theorem sameContent_layout {o : Options}
    (hfunctions : ∀ r ∈ o.dialects, ∀ f ∈ r.functions, Text.isAscii f.toList = true)
    {source : String} (hascii : Text.isAscii source.toList = true) (hesc : '\x1b' ∉ source.toList)
    {ts : List Token} {statements : List Statement}
    (htokens : tokenize o.dialect source = .ok (ts ++ [Token.eof])) (heof : ∀ t ∈ ts, t.kind ≠ .eof)
    (hparse : Statement.parse (ts ++ [Token.eof]) = .ok statements) :
    sameContent source.toList
      (pad o.distance ((Layout.draft o.commaStyle statements).text o)) = true := by
  have hprinted := printed_tokenize o (Dialect.ofRegistries_printsAscii hfunctions) hascii htokens
  have hspellings : ∀ t ∈ ts, '\x1b' ∉ (t.spelling o).toList := by
    intro t ht hmem
    apply escape_not_mem_folded hascii hesc
    rw [← hprinted, Token.printed, List.mem_flatMap]
    exact ⟨t, ht, escape_mem_folded hmem⟩
  rw [sameContent, beq_iff_eq, content_pad, content_plain hesc, ← hprinted,
    content_of_shown (visible_layout heof hparse hspellings), List.flatMap_assoc]
  rfl

/-- An ASCII text without escapes is formatted whenever it is read: neither the layout nor the
comparison of contents fails. -/
theorem format_ok_iff_reads {o : Options}
    (hfunctions : ∀ r ∈ o.dialects, ∀ f ∈ r.functions, Text.isAscii f.toList = true)
    {source : String} (hascii : Text.isAscii source.toList = true)
    (hesc : '\x1b' ∉ source.toList) :
    ((∃ out, format o source = .ok out) ↔
      ∃ ts statements, tokenize o.dialect source = .ok ts ∧ Statement.parse ts = .ok statements) ∧
    (∀ fault, format o source ≠ .error (.build fault)) ∧
    ∀ text, format o source ≠ .error (.safety text) := by
  unfold format
  cases htokens : tokenize o.dialect source with
  | error e => simp
  | ok us =>
    obtain ⟨ts, rfl, heof, -⟩ := tokenize_tokens htokens
    cases hparse : Statement.parse (ts ++ [Token.eof]) with
    | error e => simp [hparse]
    | ok statements =>
      have hsame := sameContent_layout hfunctions hascii hesc htokens heof hparse
      simp [hparse, layOut, Statement.parse_faultless hparse, hsame]

theorem format_ok_iff_reads_in_color :
    ∃ out, format ⟨2, .right, true, true, [.postgis]⟩ "select 'a\nb', St_Area(x)" = .ok out := by
  have hparse : (Statement.parse [⟨.keyword .SELECT, "SELECT"⟩, ⟨.string, "'a\nb'"⟩, ⟨.comma, ","⟩,
      ⟨.function, "ST_Area"⟩, ⟨.openParen, "("⟩, ⟨.ident, "x"⟩, ⟨.closeParen, ")"⟩,
      Token.eof]).isOk = true := by decide +kernel
  cases hstatements : Statement.parse _ with
  | error e =>
    rw [hstatements] at hparse
    cases hparse
  | ok statements =>
    refine (format_ok_iff_reads ?_ ?_ ?_).1.mpr ⟨_, statements, ?_, hstatements⟩
    · decide +kernel
    · decide
    · decide
    · decide +kernel

end SqlLayout
