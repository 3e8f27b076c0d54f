import SqlLayout.Proofs.Document
import SqlLayout.Proofs.Erasing
import SqlLayout.Proofs.Succession
import SqlLayout.Proofs.Tiling

/-! The frame of an output. Every layout begins on a fresh line, with a keyword, and ends with its last
token or with the space behind a comma. So a formatted text begins with one newline, and whether it ends
with one is up to its last token: literals and operators are the only tokens that can hold a newline. -/

namespace SqlLayout
set_option autoImplicit false

namespace Text

theorem newline_mem_upper {s : String} : '\n' ∈ (upper s).toList ↔ '\n' ∈ s.toList := by
  rw [upper, String.toList_ofList, List.mem_flatMap]
  constructor
  · rintro ⟨c, hc, hmem⟩
    rwa [eq_of_mem_upperChar (by decide) hmem] at hc
  · exact fun h => ⟨'\n', h, by decide⟩

theorem upper_eq_empty_iff {s : String} : upper s = "" ↔ s = "" := by
  rw [← String.toList_eq_nil_iff, ← String.toList_eq_nil_iff, upper, String.toList_ofList,
    List.flatMap_eq_nil_iff]
  refine ⟨fun h => List.eq_nil_iff_forall_not_mem.mpr fun c hc => ?_, fun h => by simp [h]⟩
  have hpos := length_upperChar_pos c
  simp [h c hc] at hpos

theorem lowerChar_ne_nil (c : Char) : lowerChar c ≠ [] := by
  unfold lowerChar
  split
  · simp
  · split <;> simp

theorem lowerAfter_eq_nil {before cs : List Char} (h : lowerAfter before cs = []) : cs = [] := by
  cases cs with
  | nil => rfl
  | cons c cs =>
    have hc := (List.append_eq_nil_iff.mp h).1
    split at hc
    · cases hc
    · exact absurd hc (lowerChar_ne_nil c)

theorem eq_empty_of_lower {s : String} (h : lower s = "") : s = "" := by
  rw [← String.toList_eq_nil_iff, lower, String.toList_ofList, List.append_eq_nil_iff,
    List.map_eq_nil_iff] at h
  rw [← String.toList_eq_nil_iff, ← List.take_append_drop (asciiBlocks s.toList) s.toList, h.1,
    lowerAfter_eq_nil h.2, List.append_nil]

end Text

namespace Token

/-- The token is not empty, and it holds no newline unless it is a literal or an operator. -/
structure Printable (t : Token) : Prop where
  nonempty : t.text ≠ ""
  plain : t.kind ≠ .string → t.kind ≠ .operator → '\n' ∉ t.text.toList

section Printable
variable {d : Dialect}

theorem printable_ofWord (hd : d.Spelt) {word : String} (hne : word ≠ "") (hplain : '\n' ∉ word.toList)
    (beforeParen : Bool) : (ofWord d word beforeParen).Printable := by
  have hupper : Text.upper word ≠ "" ∧ '\n' ∉ (Text.upper word).toList :=
    ⟨mt Text.upper_eq_empty_iff.mp hne, mt Text.newline_mem_upper.mp hplain⟩
  rcases ofWord_eq_cases d word beforeParen with he | ⟨k, -, he⟩ | ⟨-, hkind, he⟩ | ⟨kind, -, -, he⟩
    <;> rw [he]
  · exact ⟨hne, fun _ _ => hplain⟩
  · exact ⟨hupper.1, fun _ _ => hupper.2⟩
  · obtain ⟨f, hf, hletters⟩ := hd.functionSpelling? hkind
    rw [hf, Option.getD_some]
    rw [← hletters, ne_eq, Text.upper_eq_empty_iff, Text.newline_mem_upper] at hupper
    exact ⟨hupper.1, fun _ _ => hupper.2⟩
  · exact ⟨hupper.1, fun _ _ => hupper.2⟩

theorem printable_ofLexeme (hd : d.Spelt) {ops : List (List Char)} {l : Lexeme} {more : List Char}
    (hfits : Lexeme.Fits ops l more) (rest : List Lexeme) : (ofLexeme d l rest).Printable := by
  unfold ofLexeme
  split
  · exact ⟨hfits.nonempty, fun h => absurd rfl h⟩
  · exact ⟨hfits.nonempty, fun _ h => absurd rfl h⟩
  · rename_i kind hshape
    refine ⟨hfits.nonempty, fun _ _ => ?_⟩
    obtain ⟨c, hc, hmark⟩ := hfits.mark kind hshape
    rw [hc, List.mem_singleton]
    rintro rfl
    cases hmark
  · rename_i hshape
    refine printable_ofWord hd hfits.nonempty (fun hmem => ?_) _
    have hbare := hfits.bare hshape '\n' hmem
    revert hbare
    decide

/-- Whatever the registries are, the tokens of a text are printable. -/
theorem printable_of_tokenize {rs : List Registry} {source : String} {ts : List Token}
    (h : tokenize (Dialect.ofRegistries rs) source = .ok (ts ++ [Token.eof])) :
    ∀ t ∈ ts, t.Printable := by
  obtain ⟨scraps, tail, hlegible, -, hts⟩ := tokenize_ok h
  have hitem : ∀ s ∈ classify (Dialect.ofRegistries rs) (Scrap.lexemes false true scraps),
      s.token.Printable := by
    intro s hs
    obtain ⟨words, hwords, htoken⟩ | ⟨l, hl, rest, htoken⟩ := classify_mem hs
    · have hall : ∀ words ∈ Vocabulary.compoundTypes, " ".intercalate words ≠ "" ∧
          '\n' ∉ (" ".intercalate words).toList := by
        decide +kernel
      rw [htoken]
      exact ⟨(hall words hwords).1, fun _ _ => (hall words hwords).2⟩
    · obtain ⟨more, hstands⟩ := hlegible.stands false true l hl
      rw [htoken]
      have hfits := hstands.fits l.afterNewline l.spaced
      rw [String.ofList_toList] at hfits
      exact printable_ofLexeme (Dialect.ofRegistries_spelt rs) hfits rest
  intro t ht
  rw [List.append_cancel_right hts] at ht
  rcases resolve_mem ht with ⟨chain, literal, -, hliteral, -, rfl⟩ | ⟨s, hs, rest, rfl⟩
  · refine ⟨fun hempty => (hitem literal hliteral).nonempty ?_, fun h => absurd rfl h⟩
    exact (String.append_eq_empty_iff.mp hempty).2
  · obtain ⟨hne, hplain⟩ := hitem s hs
    refine ⟨hne, fun hstring hoperator => hplain ?_ ?_⟩
    · exact mt (kindInContext_string s rest).mpr hstring
    · intro hkind
      rw [kindInContext, hkind] at hoperator
      exact hoperator rfl

end Printable

section Render
variable {o : Options} {t : Token}

/-- What is printed of the token ends with a newline: it is an operator, or a literal without colors, whose
text does so. -/
def Spills (o : Options) (t : Token) : Prop :=
  t.text.toList.getLast? = some '\n' ∧ (t.kind = .operator ∨ t.kind = .string ∧ o.colorized = false)

theorem Printable.spelling_ne_empty (h : t.Printable) (o : Options) : t.spelling o ≠ "" := by
  unfold spelling
  split
  · exact h.nonempty
  · split
    · cases hvalue : Vocabulary.canonicalReserved? t.text with
      | none => exact h.nonempty
      | some value =>
        rintro rfl
        have hmem := canonicalReserved?_mem hvalue
        revert hmem
        decide
    · split
      · exact mt Text.eq_empty_of_lower h.nonempty
      · exact h.nonempty

theorem getLast?_paint (color : Color) (text : List Char) : (color.paint text).getLast? = some 'm' := by
  rw [Color.paint, List.getLast?_append]
  rfl

theorem render_cases (o : Options) (t : Token) :
    (∃ color, o.colorized = true ∧ Color.ofKind? t.kind = some color ∧
      (t.render o).toList = color.paint (t.spelling o).toList) ∨
    (o.colorized = false ∨ Color.ofKind? t.kind = none) ∧ t.render o = t.spelling o := by
  unfold render
  cases hcolor : o.colorized with
  | false => exact Or.inr ⟨Or.inl rfl, rfl⟩
  | true =>
    cases hkind : Color.ofKind? t.kind with
    | none => exact Or.inr ⟨Or.inr rfl, rfl⟩
    | some color => exact Or.inl ⟨color, rfl, rfl, String.toList_ofList⟩

theorem Printable.render_ne_nil (h : t.Printable) (o : Options) : (t.render o).toList ≠ [] := by
  obtain ⟨color, -, -, hrender⟩ | ⟨-, hrender⟩ := render_cases o t
  · intro hnil
    have hlast := getLast?_paint color (t.spelling o).toList
    simp [← hrender, hnil] at hlast
  · rw [hrender]
    exact mt String.toList_eq_nil_iff.mp (h.spelling_ne_empty o)

/-- Only literals and operators print a newline, and a colored literal ends with its escape sequence. -/
theorem Printable.getLast?_render (h : t.Printable) (o : Options) :
    (t.render o).toList.getLast? = some '\n' ↔ t.Spills o := by
  obtain ⟨color, hcolor, hkind, hrender⟩ | ⟨hcolor, hrender⟩ := render_cases o t
  · refine iff_of_false (by simp [hrender, getLast?_paint]) ?_
    rintro ⟨-, hoperator | ⟨-, hplain⟩⟩
    · rw [hoperator] at hkind
      cases hkind
    · simp [hcolor] at hplain
  · rw [hrender]
    by_cases hspills : t.kind = .operator ∨ t.kind = .string
    · have hspelling : t.spelling o = t.text := by
        obtain hkind | hkind := hspills <;> simp [spelling, hkind, TokenKind.isVerbatim]
      rw [hspelling, Spills, and_iff_left]
      refine hspills.imp_right fun hkind => ⟨hkind, hcolor.resolve_right ?_⟩
      simp [hkind, Color.ofKind?]
    · refine iff_of_false (fun hlast => ?_) fun h => hspills (h.2.imp_right And.left)
      obtain ⟨hoperator, hstring⟩ := not_or.mp hspills
      exact h.plain hstring hoperator
        (mem_of_mem_spelling (by decide) (List.mem_of_getLast? hlast))

theorem Printable.head?_render (h : t.Printable) (hkind : t.kind.isKeyword = true) (o : Options) :
    (t.render o).toList.head? ≠ some '\n' := by
  obtain ⟨color, -, -, hrender⟩ | ⟨-, hrender⟩ := render_cases o t
  · simp [hrender, Color.paint, Color.reset]
  · rw [hrender]
    intro hhead
    refine h.plain ?_ ?_ (mem_of_mem_spelling (by decide) (List.mem_of_head? hhead))
    · rintro hstring
      simp [hstring, TokenKind.isKeyword] at hkind
    · rintro hoperator
      simp [hoperator, TokenKind.isKeyword] at hkind

end Render
end Token

theorem getLast?_padFrom (n : Nat) (atStart : Bool) (text : List Char) :
    (padFrom n atStart text).getLast? = text.getLast? := by
  obtain rfl | ⟨init, c, rfl⟩ := List.eq_nil_or_concat text
  · rfl
  · rw [List.concat_eq_append, padFrom_append, padFrom]
    split
    · simp [padFrom]
    · split <;> simp [padFrom]

theorem Draft.Step.getLast?_pending {style : CommaStyle} {s : Spot} {d e : Draft}
    (h : Step style s d e) : e.pending = [] ∨ e.pending.getLast? = some ' ' := by
  have hspaced : ∀ d : Draft, (d.spaced s.token).pending = [] := by
    intro d
    unfold Draft.spaced
    split <;> rfl
  cases h with
  | line indent pad => exact Or.inl rfl
  | inline =>
    left
    unfold Draft.inline
    split
    · rfl
    · exact hspaced d
  | spaced => exact Or.inl (hspaced d)
  | tight => exact Or.inl rfl
  | columnComma indent =>
    cases style with
    | left => exact Or.inl rfl
    | right =>
      right
      simp [Draft.columnComma, Draft.newline, Draft.tight, List.getLast?_cons, List.getLast?_replicate]

theorem Draft.Puts.getLast?_pending {style : CommaStyle} {spots : List Spot} {d e : Draft}
    (h : Puts style spots d e) (hd : d.pending = [] ∨ d.pending.getLast? = some ' ') :
    e.pending = [] ∨ e.pending.getLast? = some ' ' := by
  induction h with
  | nil => exact hd
  | cons hstep _ ih => exact ih hstep.getLast?_pending

section Layout
variable {o : Options} {ts : List Token} {ss : List Statement}

theorem text_draft (o : Options) (ss : List Statement) : (Layout.draft o.commaStyle ss).text o =
    ((layoutPieces o ss).flatMap fun p => p.gap ++ (p.token.render o).toList) ++ layoutTail o ss := rfl

/-- The layout ends with the newline of its last token, if at all. -/
theorem LaidOut.getLast?_text (hlaid : LaidOut o ts ss) (hprintable : ∀ t ∈ ts, t.Printable) :
    ((Layout.draft o.commaStyle ss).text o).getLast? = some '\n' ↔ ∃ t ∈ ts.getLast?, t.Spills o := by
  have htail : layoutTail o ss = [] ∨ (layoutTail o ss).getLast? = some ' ' :=
    (Layout.draft_puts o.commaStyle ss).getLast?_pending (Or.inl rfl)
  have htokens := hlaid.tokens
  have hcomma := hlaid.last
  rw [text_draft]
  obtain hnil | ⟨init, p, hpieces⟩ := List.eq_nil_or_concat (layoutPieces o ss)
  · rw [hnil] at htokens hcomma ⊢
    obtain rfl : [] = ts := htokens
    obtain hcomma | ⟨p, hp, -⟩ := hcomma
    · simp [hcomma]
    · cases hp
  · rw [hpieces, List.concat_eq_append] at htokens hcomma ⊢
    rw [List.map_append, List.map_singleton] at htokens
    have hlast : ts.getLast? = some p.token := by
      rw [← htokens, List.getLast?_concat]
    have hp := hprintable p.token (List.mem_of_getLast? hlast)
    rw [hlast]
    simp only [Option.mem_def, Option.some.injEq, exists_eq_left']
    obtain htail | htail := htail
    · rw [← hp.getLast?_render o, htail, List.append_nil, List.flatMap_append, List.flatMap_singleton,
        List.getLast?_append_of_ne_nil _ (by simp [hp.render_ne_nil o]),
        List.getLast?_append_of_ne_nil _ (hp.render_ne_nil o)]
    · have hkind : p.token.kind = .comma := by
        obtain hnil | ⟨q, hq, hkind⟩ := hcomma
        · simp [hnil] at htail
        · rw [List.getLast?_concat] at hq
          rwa [Option.some.inj hq]
      have hspills : ¬p.token.Spills o := by
        rintro ⟨-, hoperator | ⟨hstring, -⟩⟩
        · simp [hkind] at hoperator
        · simp [hkind] at hstring
      rw [List.getLast?_append, htail]
      exact iff_of_false (by simp) hspills

/-- Behind a newline the layout of a script goes on with the space of the line or with a keyword. -/
theorem exists_text {tokens : List Token} (h : Statement.parse tokens = .ok ss) (hne : ss ≠ [])
    (hprintable : ∀ p ∈ layoutPieces o ss, p.token.Printable) :
    ∃ c cs, c ≠ '\n' ∧ (Layout.draft o.commaStyle ss).text o = '\n' :: c :: cs := by
  obtain ⟨m, t, rest, ht, hpieces⟩ := Layout.head_layoutPieces o h hne
  rw [hpieces] at hprintable
  rw [text_draft, hpieces]
  cases m with
  | succ m => exact ⟨' ', _, by decide, rfl⟩
  | zero =>
    have hkeyword : t.kind.isKeyword = true := by
      rcases TokenKind.leads_iff.mp ht with hk | hk | hk | hk | hk | hk <;> rw [hk] <;> rfl
    have htoken := hprintable _ List.mem_cons_self
    obtain ⟨c, cs, hrender⟩ := List.exists_cons_of_ne_nil (htoken.render_ne_nil o)
    have hhead := htoken.head?_render hkeyword o
    rw [hrender] at hhead
    refine ⟨c, cs ++ ((rest.flatMap fun p => p.gap ++ (p.token.render o).toList) ++ layoutTail o ss),
      by simpa using hhead, ?_⟩
    simp [hrender]

theorem head?_padFrom {c : Char} (hc : c ≠ '\n') (n : Nat) (cs : List Char) :
    (padFrom n true (c :: cs)).head? ≠ some '\n' := by
  rw [padFrom_true n hc]
  cases n with
  | zero => simp [padFrom, hc]
  | succ n => simp [List.replicate_succ]

theorem asDocument_newline {out : String} {body : List Char} (hne : body ≠ [])
    (hout : out.toList = '\n' :: body) : (asDocument out).toList = body ++ ['\n'] := by
  unfold asDocument
  simp [hout, hne]

end Layout

/-- A formatted text is empty when the source has no tokens. Otherwise it begins with one newline, and
the document begins with none and has one more at its end. Both end with the newline of the last token if
that token prints one: if it is an operator, or a literal without colors, whose text ends with a
newline. -/
theorem format_framed {o : Options} {text out : String} (h : format o text = .ok out) :
    (∀ source, Text.decode source = .ok text → formatDocument o source = .ok (asDocument out)) ∧
    ∃ ts, tokenize o.dialect text = .ok (ts ++ [Token.eof]) ∧
      (out = "" ↔ ts = []) ∧ (asDocument out = "" ↔ ts = []) ∧
      (ts ≠ [] → ∃ body : List Char, body ≠ [] ∧ body.head? ≠ some '\n' ∧
        out.toList = '\n' :: body ∧ (asDocument out).toList = body ++ ['\n'] ∧
        (body.getLast? = some '\n' ↔ ∃ t ∈ ts.getLast?, t.Spills o)) := by
  obtain ⟨ts, ss, htokens, heof, hparse, hout, -⟩ := format_ok h
  have hlaid := parse_laidOut o heof hparse
  have hprintable := Token.printable_of_tokenize htokens
  refine ⟨fun source hdecode => ?_, ts, htokens, ?_⟩
  · rw [formatDocument, formatBytes, hdecode]
    dsimp only
    rw [h]
    rfl
  by_cases hnil : ss = []
  · subst hnil
    obtain rfl : [] = ts := hlaid.tokens
    obtain rfl : out = "" := String.toList_eq_nil_iff.mp hout
    exact ⟨iff_of_true rfl rfl, iff_of_true rfl rfl, fun hne => absurd rfl hne⟩
  · have hne : ts ≠ [] := by
      obtain ⟨m, t, rest, -, hpieces⟩ := Layout.head_layoutPieces o hparse hnil
      rw [← hlaid.tokens, hpieces]
      simp
    obtain ⟨c, cs, hc, htext⟩ := exists_text hparse hnil fun p hp =>
      hprintable p.token (hlaid.tokens ▸ List.mem_map_of_mem hp)
    have hends := hlaid.getLast?_text hprintable
    rw [htext, List.getLast?_cons_cons, ← getLast?_padFrom o.distance true] at hends
    rw [htext] at hout
    have hbody : padFrom o.distance true (c :: cs) ≠ [] := by
      simp [padFrom_eq_nil_iff]
    have hdocument := asDocument_newline hbody hout
    refine ⟨iff_of_false ?_ hne, iff_of_false ?_ hne, fun _ =>
      ⟨_, hbody, head?_padFrom hc _ _, hout, hdocument, hends⟩⟩
    · rintro rfl
      cases hout
    · intro hempty
      simp [hempty] at hdocument

/-- The newline behind an open literal belongs to it. -/
theorem format_framed_open_literal :
    format {} "SELECT 'abc\n" = .ok "\nSELECT\n  'abc\n" ∧
      formatDocument {} "SELECT 'abc\n".toUTF8 = .ok "SELECT\n  'abc\n\n" ∧
      ∃ ts, tokenize ({} : Options).dialect "SELECT 'abc\n" = .ok (ts ++ [Token.eof]) ∧
        ∃ t ∈ ts.getLast?, t.Spills {} := by
  have hformat : format {} "SELECT 'abc\n" = .ok "\nSELECT\n  'abc\n" := by decide +kernel
  obtain ⟨hdocument, ts, htokens, hempty, -, hframe⟩ := format_framed hformat
  obtain ⟨body, -, -, hout, -, hends⟩ := hframe (mt hempty.mpr (by decide))
  refine ⟨hformat, (hdocument _ (Text.decode_toUTF8 _)).trans (by decide +kernel), ts, htokens,
    hends.mp ?_⟩
  rw [← (List.cons.inj hout).2]
  decide +kernel

end SqlLayout
