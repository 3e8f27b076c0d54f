import SqlLayout.Format
import SqlLayout.Proofs.Respelling
import SqlLayout.Proofs.Script

/-! What stands behind a text that is formatted: the tokens of the source, the statements that they
are read as, and the pieces of the layout, which hold the tokens of the source in their order. -/

namespace SqlLayout
set_option autoImplicit false

namespace Token

/-- A token is a literal with its prefix, or an item in its context. -/
theorem resolve_mem {d : Dialect} {items : List Spaced} {t : Token} (h : t ∈ resolve d items) :
    (∃ chain literal, chain ⊆ items ∧ literal ∈ items ∧ Prefixes d chain literal ∧
      t = ⟨.string, joinedText "" chain ++ literal.token.text⟩) ∨
    ∃ s ∈ items, ∃ rest, t = ⟨kindInContext s rest, s.token.text⟩ := by
  induction items using resolve_induction d with
  | nil => simp [resolve] at h
  | joined chain literal rest hprefixes hresolve ih =>
    rw [hresolve] at h
    rcases List.mem_cons.mp h with rfl | h
    · exact Or.inl ⟨chain, literal, List.subset_append_left _ _, by simp, hprefixes, rfl⟩
    · rcases ih h with ⟨chain', literal', hchain, hliteral, hmore⟩ | ⟨r, hr, hmore⟩
      · exact Or.inl ⟨chain', literal', fun r hr => by simp [hchain hr], by simp [hliteral], hmore⟩
      · exact Or.inr ⟨r, by simp [hr], hmore⟩
  | lone s items hnone hresolve ih =>
    rw [hresolve] at h
    rcases List.mem_cons.mp h with rfl | h
    · exact Or.inr ⟨s, List.mem_cons_self, items, rfl⟩
    · rcases ih h with ⟨chain, literal, hchain, hliteral, hmore⟩ | ⟨r, hr, hmore⟩
      · exact Or.inl ⟨chain, literal, List.subset_cons_of_subset s hchain,
          List.mem_cons_of_mem s hliteral, hmore⟩
      · exact Or.inr ⟨r, List.mem_cons_of_mem s hr, hmore⟩

/-- The item is a compound type, or comes of one of the lexemes. -/
def Made (d : Dialect) (ls : List Lexeme) (s : Spaced) : Prop :=
  (∃ words ∈ Vocabulary.compoundTypes, s.token = ⟨.type, " ".intercalate words⟩) ∨
    ∃ l ∈ ls, ∃ rest, s.token = ofLexeme d l rest

theorem Made.mono {d : Dialect} {ls ks : List Lexeme} {s : Spaced} (h : Made d ls s)
    (hsubset : ls ⊆ ks) : Made d ks s := by
  refine h.imp id ?_
  rintro ⟨l, hl, hmore⟩
  exact ⟨l, hsubset hl, hmore⟩

theorem classify_mem {d : Dialect} {ls : List Lexeme} {s : Spaced} (h : s ∈ classify d ls) :
    Made d ls s := by
  induction ls using classify_induction with
  | nil => simp [classify] at h
  | compound l ls words taken rest hword hfound hwords htaken _ ih =>
    rw [classify_some hword hfound] at h
    rcases List.mem_cons.mp h with rfl | h
    · exact Or.inl ⟨words, hwords, rfl⟩
    · rw [htaken]
      exact (ih h).mono (List.subset_append_right taken rest)
  | lone l ls hnone ih =>
    rw [classify_none hnone] at h
    rcases List.mem_cons.mp h with rfl | h
    · exact Or.inr ⟨l, List.mem_cons_self, ls, rfl⟩
    · exact (ih h).mono (List.subset_cons_self l ls)

theorem ofWord_shape (d : Dialect) (word : String) (beforeParen : Bool) :
    (ofWord d word beforeParen).kind.shape = .word := by
  unfold ofWord
  dsimp only
  split
  · rfl
  · split <;> rfl

end Token

section Tokens
open Token
variable {d : Dialect} {source : String} {ts : List Token}

theorem tokenize_ok (h : tokenize d source = .ok ts) :
    ∃ scraps tail, Scrap.Legible (d.operators.map String.toList) scraps tail ∧
      source.toList = Scrap.flat scraps ++ tail ∧
      ts = resolve d (classify d (Scrap.lexemes false true scraps)) ++ [Token.eof] := by
  unfold tokenize at h
  cases hscan : Lexeme.scan d.operators source with
  | error e =>
    rw [hscan] at h
    cases h
  | ok ls =>
    rw [hscan] at h
    obtain ⟨scraps, tail, hlegible, htext, rfl⟩ := Scrap.scan_iff.mp hscan
    cases h
    exact ⟨scraps, tail, hlegible, htext, rfl⟩

theorem Scrap.Legible.stands {ops : List (List Char)} {scraps : List Scrap} {tail : List Char}
    (h : Scrap.Legible ops scraps tail) (afterNewline spaced : Bool) :
    ∀ l ∈ Scrap.lexemes afterNewline spaced scraps, ∃ rest,
      Lexeme.Stands ops l.shape l.text.toList rest := by
  induction h generalizing afterNewline spaced with
  | nil => simp [Scrap.lexemes]
  | @cons s scraps tail hgap hstands _ ih =>
    intro l hl
    rcases List.mem_cons.mp hl with rfl | hl
    · exact ⟨_, by rw [String.toList_ofList]; exact hstands⟩
    · exact ih false false l hl

theorem Scrap.Legible.isPunctuation {ops : List (List Char)} {scraps : List Scrap} {tail : List Char}
    (h : Scrap.Legible ops scraps tail) (afterNewline spaced : Bool) :
    ∀ l ∈ Scrap.lexemes afterNewline spaced scraps, ∀ kind, l.shape = .mark kind →
      kind.isPunctuation = true := by
  intro l hl kind hkind
  obtain ⟨rest, hstands⟩ := h.stands afterNewline spaced l hl
  rw [hkind] at hstands
  exact hstands.isPunctuation.1

/-- The tokens of a text end where the end of the input stands, and nowhere before. Operators among
them are operators of the dialect. -/
theorem tokenize_tokens (h : tokenize d source = .ok ts) :
    ∃ us, ts = us ++ [Token.eof] ∧ (∀ t ∈ us, t.kind ≠ .eof) ∧
      ∀ t ∈ us, t.kind = .operator → t.text.toList ∈ d.operators.map String.toList := by
  obtain ⟨scraps, tail, hlegible, -, rfl⟩ := tokenize_ok h
  refine ⟨_, rfl, ?_⟩
  have hitem : ∀ t ∈ resolve d (classify d (Scrap.lexemes false true scraps)),
      t.kind ≠ .eof ∧ (t.kind = .operator → t.text.toList ∈ d.operators.map String.toList) := by
    intro t ht
    rcases resolve_mem ht with ⟨chain, literal, -, -, -, rfl⟩ | ⟨s, hs, rest, ht⟩
    · exact ⟨by simp, by simp⟩
    · have hshape : t.kind.shape = s.token.kind.shape := by
        rw [ht]
        exact (shape_kindInContext s rest).1
      have htext : t.text = s.token.text := by rw [ht]
      clear ht
      rcases classify_mem hs with ⟨words, -, htype⟩ | ⟨l, hl, rest, hs⟩
      · rw [htype] at hshape
        constructor <;> · intro hkind; rw [hkind] at hshape; cases hshape
      · obtain ⟨more, hstands⟩ := hlegible.stands false true l hl
        rw [hs] at hshape htext
        unfold ofLexeme at hshape htext
        cases hl' : l.shape with
        | word =>
          rw [hl'] at hshape
          dsimp only at hshape
          rw [ofWord_shape] at hshape
          constructor <;> · intro hkind; rw [hkind] at hshape; cases hshape
        | quoted =>
          rw [hl'] at hshape
          constructor <;> · intro hkind; rw [hkind] at hshape; cases hshape
        | operator =>
          rw [hl'] at hshape htext hstands
          refine ⟨?_, fun _ => ?_⟩
          · intro hkind
            rw [hkind] at hshape
            cases hshape
          · rw [htext]
            exact hstands.mem_operators
        | mark kind =>
          rw [hl'] at hshape hstands
          obtain ⟨hpunctuation, hne⟩ := hstands.isPunctuation
          rw [show (Token.mk kind l.text).kind.shape = kind.shape from rfl,
            (TokenKind.shape_mark hpunctuation).1] at hshape
          constructor
          · intro hkind
            rw [hkind] at hshape
            cases hshape
            exact hne rfl
          · intro hkind
            rw [hkind] at hshape
            cases hshape
  exact ⟨fun t ht => (hitem t ht).1, fun t ht => (hitem t ht).2⟩

end Tokens

/-- The pieces of the layout of a script, in the order of the text. -/
def layoutPieces (o : Options) (statements : List Statement) : List Piece :=
  (Layout.draft o.commaStyle statements).pieces.reverse

/-- The white space behind the layout of a script. -/
def layoutTail (o : Options) (statements : List Statement) : List Char :=
  (Layout.draft o.commaStyle statements).pending

/-- What is known of the layout of a script. -/
structure LaidOut (o : Options) (ts : List Token) (statements : List Statement) : Prop where
  tokens : (layoutPieces o statements).map Piece.token = ts
  blank : ∀ p ∈ layoutPieces o statements, Scrap.isBlank p.gap
  apart : (layoutPieces o statements).IsChain Piece.Apart
  tail : Scrap.isBlank (layoutTail o statements)
  last : layoutTail o statements = [] ∨
    ∃ p ∈ (layoutPieces o statements).getLast?, p.token.kind = .comma

/-- A script that is read is laid out with the tokens that it was read from. -/
theorem parse_laidOut (o : Options) {ts : List Token} {statements : List Statement}
    (heof : ∀ t ∈ ts, t.kind ≠ .eof)
    (h : Statement.parse (ts ++ [Token.eof]) = .ok statements) : LaidOut o ts statements := by
  have hneat := Layout.draft_neat o.commaStyle fun s hs =>
    (Statement.parse_parsed h s hs).terminator
  have htokens := Layout.draft_tokens o.commaStyle statements
  rw [Statement.parse_tokens h heof] at htokens
  constructor
  · exact htokens
  · intro p hp
    exact Scrap.isBlank_of_spaces (hneat.blank p (List.mem_reverse.mp hp))
  · exact List.isChain_reverse.mpr hneat.apart
  · exact Scrap.isBlank_of_spaces hneat.pending
  · refine ((Layout.draft_puts o.commaStyle statements).pending (Or.inl rfl)).imp id ?_
    rintro ⟨p, hp, hkind⟩
    exact ⟨p, by rw [layoutPieces, List.getLast?_reverse]; exact hp, hkind⟩

theorem format_ok {o : Options} {source out : String} (h : format o source = .ok out) :
    ∃ ts statements, tokenize o.dialect source = .ok (ts ++ [Token.eof]) ∧
      (∀ t ∈ ts, t.kind ≠ .eof) ∧ Statement.parse (ts ++ [Token.eof]) = .ok statements ∧
      out.toList = pad o.distance ((Layout.draft o.commaStyle statements).text o) ∧
      content source.toList = content out.toList := by
  unfold format at h
  cases htokens : tokenize o.dialect source with
  | error e =>
    rw [htokens] at h
    cases h
  | ok us =>
    obtain ⟨ts, rfl, heof, -⟩ := tokenize_tokens htokens
    simp only [htokens] at h
    cases hparse : Statement.parse (ts ++ [Token.eof]) with
    | error e =>
      rw [hparse] at h
      cases h
    | ok statements =>
      simp only [hparse] at h
      unfold layOut at h
      rw [Statement.parse_faultless hparse] at h
      dsimp only at h
      split at h
      · rename_i hsame
        cases h
        refine ⟨ts, statements, rfl, heof, hparse, by rw [String.toList_ofList], ?_⟩
        rw [String.toList_ofList]
        simpa [sameContent] using hsame
      · cases h

/-- Without colors the text of a layout is that of its pieces and of the white space behind them. -/
theorem draft_text {o : Options} (hcolor : o.colorized = false) (statements : List Statement) :
    (Layout.draft o.commaStyle statements).text o =
      Piece.flat o (layoutPieces o statements) ++ layoutTail o statements := by
  unfold Draft.text Piece.flat layoutPieces layoutTail
  simp [Token.render, hcolor]

end SqlLayout
