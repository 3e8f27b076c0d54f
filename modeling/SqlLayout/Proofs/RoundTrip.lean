import SqlLayout.Proofs.Formatting
import SqlLayout.Proofs.Padding
import SqlLayout.Proofs.Safeguard

/-! Tokens survive formatting. A layout of the tokens of a text is read as these tokens again, with
AND and OR as its lines begin, whenever its content is that of the text. The one thing that stands in
the way is an identifier that ends with a colon before a cast. -/

namespace SqlLayout
set_option autoImplicit false
open Token

/-- An identifier that ends with a colon stands directly before a cast. -/
def Token.StrayColon (t u : Token) : Prop :=
  t.kind = .ident ∧ t.text.toList.getLast? = some ':' ∧ u = ⟨.operator, "::"⟩

instance (t u : Token) : Decidable (StrayColon t u) :=
  inferInstanceAs (Decidable (t.kind = .ident ∧ t.text.toList.getLast? = some ':' ∧ u = _))

/-- The kind of a token, whether its line begins with it or not. -/
def TokenKind.unlined : TokenKind → TokenKind
  | .lineAnd => .keyword .AND
  | .lineOr => .keyword .OR
  | kind => kind

/-- Two tokens have the same text and the same kind, but AND and OR may begin a line or not. -/
def Token.SameUpToLines (t u : Token) : Prop :=
  u.text = t.text ∧ u.kind.unlined = t.kind.unlined

theorem isClosed_of_last {ops : List (List Char)} {a : Scrap} {t : Token} (hprints : a.Prints t)
    (hstands : Lexeme.Stands ops a.shape a.text []) (hquoted : a.shape = .quoted)
    (hopen : t.isOpen = false) : Lexeme.isClosed a.text = true := by
  have htext : a.text = t.text.toList := hprints.verbatim (Or.inr (by simp [hquoted]))
  obtain ⟨c, cs, hcs, hquote, -⟩ := Scrap.stands_head hstands
  have hkind : t.kind = .string := by
    have hshape := hprints.shape
    rw [hquoted] at hshape
    revert hshape
    cases t.kind <;> simp [TokenKind.shape, TokenKind.isPunctuation]
  simp only [isOpen, hkind, decide_true, Bool.true_and, Bool.not_eq_false'] at hopen
  rw [← htext, hcs, List.dropWhile_cons_of_neg (by simp [hquote hquoted])] at hopen
  rwa [hcs]

/-- A layout of the tokens of a text that has the content of the text is read as these tokens. -/
theorem tokenize_flat {o : Options} {d : Dialect} (tame : d.Tame) {source : String}
    {pieces : List Piece} {tail : List Char}
    (hsource : tokenize d source = .ok (pieces.map Piece.token ++ [Token.eof]))
    (hblank : ∀ p ∈ pieces, Scrap.isBlank p.gap) (hapart : pieces.IsChain Piece.Apart)
    (hstray : pieces.IsChain fun p q => ¬Piece.Stray p q) (htail : Scrap.isBlank tail)
    (hlast : tail = [] ∨ ∀ p ∈ pieces.getLast?, p.token.isOpen = false)
    (hcontent : content source.toList = content (Piece.flat o pieces ++ tail)) :
    tokenize d (String.ofList (Piece.flat o pieces ++ tail)) =
      .ok (Piece.relined false pieces ++ [Token.eof]) := by
  obtain ⟨source', before, hlegible, htext, hts⟩ := tokenize_ok hsource
  have htokens := List.append_cancel_right hts
  obtain ⟨hstands, hclosed⟩ := hlegible.lexemes_alone tame.operators false true
  obtain ⟨parts, hparts⟩ := Unjoined.exists_parts (o := o) tame
    (Respelled.classify_raw tame hstands) htokens hapart hstray
  obtain ⟨scraps, hscraps⟩ := Respelled.exists_scraps (o := o) tame hstands hclosed hparts.tokens
    (hparts.blank hblank) hparts.bound hparts.unstray
  have hflat : Scrap.flat scraps = Piece.flat o pieces := hscraps.text.trans hparts.text
  have halike := Scrap.alike_of_content hlegible false true false true hscraps.respelt
    hscraps.alone hscraps.blank hscraps.meets htail (by rw [← htext, hflat]; exact hcontent)
  have hprinted : Scrap.Legible (d.operators.map String.toList) scraps tail := by
    apply Scrap.legible_of_meets tame.operators hscraps.blank hscraps.alone hscraps.meets htail
    refine hlast.imp id ?_
    intro hopen a ha hquoted
    obtain ⟨q, hq, hprints⟩ := hscraps.last a ha
    obtain ⟨p, hp, hsame⟩ := hparts.last q hq
    exact isClosed_of_last hprints (hscraps.alone a (List.mem_of_getLast? ha)) hquoted
      (hsame.trans (hopen p hp))
  have hscan : Lexeme.scan d.operators (String.ofList (Piece.flat o pieces ++ tail)) =
      .ok (Scrap.lexemes false true scraps) :=
    Scrap.scan_iff.mpr ⟨scraps, tail, hprinted, by rw [String.toList_ofList, hflat], rfl⟩
  unfold tokenize
  rw [hscan]
  dsimp only
  rw [hscraps.classified false true halike, hparts.reads false true]

theorem reline_sameUpToLines (begins : Bool) (t : Token) : t.SameUpToLines (t.reline begins) := by
  obtain ⟨kind, text⟩ := t
  unfold SameUpToLines reline
  cases begins <;> (dsimp only; split <;> exact ⟨rfl, rfl⟩)

theorem relined_sameUpToLines (afterNewline : Bool) (pieces : List Piece) :
    List.Forall₂ SameUpToLines (pieces.map Piece.token) (Piece.relined afterNewline pieces) := by
  induction pieces generalizing afterNewline with
  | nil => exact .nil
  | cons p pieces ih => exact .cons (reline_sameUpToLines _ p.token) (ih false)

theorem unstray_of_tokens {d : Dialect} (tame : d.Tame) {pieces : List Piece}
    (hops : ∀ p ∈ pieces, p.token.kind = .operator →
      p.token.text.toList ∈ d.operators.map String.toList)
    (h : (pieces.map Piece.token).IsChain fun t u => ¬StrayColon t u) :
    pieces.IsChain fun p q => ¬Piece.Stray p q := by
  induction pieces with
  | nil => exact .nil
  | cons p pieces ih =>
    rw [List.map_cons, List.isChain_cons] at h
    rw [List.isChain_cons]
    refine ⟨?_, ih (fun q hq => hops q (List.mem_cons_of_mem p hq)) h.2⟩
    rintro q hq ⟨hident, hlast, hcast⟩
    refine h.1 q.token (by rw [List.head?_map, hq]; rfl) ⟨hident, hlast, ?_⟩
    simp only [isCast, Bool.and_eq_true, decide_eq_true_eq, List.isPrefixOf_iff_prefix] at hcast
    obtain ⟨hkind, more, hmore⟩ := hcast
    have hmem := hops q (List.mem_cons_of_mem p (List.mem_of_head? hq)) hkind
    have htext := tame.operators.colon _ hmem (by rw [← hmore]; simp)
    have hcolons : q.token.text = "::" := String.toList_injective htext
    rw [← hkind, ← hcolons]

theorem tokenize_layout {o : Options} (tame : o.dialect.Tame) {source : String} {ts : List Token}
    {statements : List Statement} (hsource : tokenize o.dialect source = .ok (ts ++ [Token.eof]))
    (hparse : Statement.parse (ts ++ [Token.eof]) = .ok statements)
    (hstray : ts.IsChain fun t u => ¬StrayColon t u)
    (hcontent : content source.toList =
      content (Piece.flat o (layoutPieces o statements) ++ layoutTail o statements)) :
    tokenize o.dialect
        (String.ofList (Piece.flat o (layoutPieces o statements) ++ layoutTail o statements)) =
      .ok (Piece.relined false (layoutPieces o statements) ++ [Token.eof]) := by
  obtain ⟨us, hus, heof, hops⟩ := tokenize_tokens hsource
  obtain rfl := List.append_cancel_right hus
  have hlaid := parse_laidOut o heof hparse
  apply tokenize_flat tame _ hlaid.blank hlaid.apart _ hlaid.tail _ hcontent
  · rw [hlaid.tokens]
    exact hsource
  · apply unstray_of_tokens tame
    · intro p hp
      exact hops p.token (by rw [← hlaid.tokens]; exact List.mem_map_of_mem hp)
    · rw [hlaid.tokens]
      exact hstray
  · refine hlaid.last.imp id ?_
    rintro ⟨p, hp, hcomma⟩ q hq
    obtain rfl : p = q := Option.some.inj (hp.symm.trans hq)
    simp [isOpen, hcomma]

theorem builtin_tame {o : Options} (hdialects : o.dialects = []) : o.dialect.Tame := by
  unfold Options.dialect
  rw [hdialects]
  exact Dialect.ofRegistries_tame (by simp)

/-- A text that is formatted in the built-in dialect is read as the tokens of its source, unless an
identifier of the source ends with a colon before a cast. -/
theorem format_keeps_tokens {o : Options} {source out : String} {ts : List Token}
    (hdialects : o.dialects = []) (hdistance : o.distance = 0) (hcolor : o.colorized = false)
    (h : format o source = .ok out) (htokens : tokenize o.dialect source = .ok ts)
    (hstray : ts.IsChain fun t u => ¬StrayColon t u) :
    ∃ us, tokenize o.dialect out = .ok us ∧ List.Forall₂ SameUpToLines ts us := by
  obtain ⟨us, statements, hsource, heof, hparse, hout, hcontent⟩ := format_ok h
  obtain rfl : us ++ [Token.eof] = ts := by
    rw [hsource] at htokens
    exact Except.ok.inj htokens
  rw [hdistance, pad, padFrom_zero, draft_text hcolor] at hout
  rw [hout] at hcontent
  have hread := tokenize_layout (builtin_tame hdialects) hsource hparse hstray.left_of_append hcontent
  rw [← hout, String.ofList_toList] at hread
  refine ⟨_, hread, ?_⟩
  apply List.rel_append
  · rw [← (parse_laidOut o heof hparse).tokens]
    exact relined_sameUpToLines false _
  · exact .cons ⟨rfl, rfl⟩ .nil

theorem format_keeps_tokens_of_select :
    ∃ us, tokenize ({} : Options).dialect "\nSELECT\n  e'y'\n  , b::x\nAND t.*" = .ok us ∧
      List.Forall₂ SameUpToLines
        [⟨.keyword .SELECT, "SELECT"⟩, ⟨.string, "e'y'"⟩, ⟨.comma, ","⟩, ⟨.ident, "b"⟩,
          ⟨.operator, "::"⟩, ⟨.ident, "x"⟩, ⟨.lineAnd, "AND"⟩, ⟨.ident, "t.*"⟩, Token.eof] us := by
  refine @format_keeps_tokens {} "select e'y',b :: x\nand t.*" _ _ rfl rfl rfl ?_ ?_ ?_
  · decide +kernel
  · decide +kernel
  · decide +kernel

end SqlLayout
