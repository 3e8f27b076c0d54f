import SqlLayout.Proofs.Spelling

/-! What becomes of literals. A layout is always read again, and its literals are read one by one.
A literal loses its prefix when an odd number of colons stands before it, which happens when an
identifier ends with a colon before a cast. It changes inside when lines that begin in it are padded.
Nothing else happens to it. -/

namespace SqlLayout
set_option autoImplicit false
open Token

def isCalm (c : Char) : Bool := Lexeme.isSeparator c || c = ':'

theorem calm_not_comment {c : Char} (h : isCalm c = true) : c ≠ '-' ∧ c ≠ '/' ∧ c ≠ '*' := by
  refine ⟨?_, ?_, ?_⟩ <;> · rintro rfl; revert h; decide

theorem uncommented_append {x y : List Char} (hx : Uncommented x) (hy : Uncommented y)
    (h : (∀ c ∈ x.getLast?, isCalm c = true) ∨ ∀ c ∈ y.head?, isCalm c = true) :
    Uncommented (x ++ y) := by
  refine List.isChain_append.mpr ⟨hx, hy, ?_⟩
  intro a ha b hb
  rcases h with h | h
  · have hcalm := calm_not_comment (h a ha)
    exact ⟨fun hpair => hcalm.1 hpair.1, fun hpair => hcalm.2.1 hpair.1⟩
  · have hcalm := calm_not_comment (h b hb)
    exact ⟨fun hpair => hcalm.1 hpair.2, fun hpair => hcalm.2.2 hpair.2⟩

theorem calm_of_blank {x : List Char} (h : Scrap.isBlank x) : ∀ c ∈ x, isCalm c = true := by
  intro c hc
  simp [isCalm, Lexeme.isSeparator, h c hc]

theorem uncommented_blank {x : List Char} (h : Scrap.isBlank x) : Uncommented x := by
  induction x with
  | nil => exact .nil
  | cons c x ih =>
    have hc := calm_not_comment (calm_of_blank h c List.mem_cons_self)
    refine List.isChain_cons.mpr ⟨?_, ih fun e he => h e (List.mem_cons_of_mem c he)⟩
    exact fun e _ => ⟨fun hpair => hc.1 hpair.1, fun hpair => hc.2.1 hpair.1⟩

theorem unquoted_blank {x : List Char} (h : Scrap.isBlank x) : Unquoted x :=
  fun c hc => Scrap.isQuote_of_isWhitespace (h c hc)

section Tokens
variable {o : Options} {d : Dialect} {t : Token}

theorem Token.Known.holds_cases (strict : d.Strict) (h : t.Known o d) (hholds : t.holds = true) :
    t.kind ≠ .string ∧
      ((∃ c, (t.spelling o).toList = [c] ∧ Lexeme.isSeparator c = true ∧
        Lexeme.isQuote c = false) ∨ (t.spelling o).toList = [':', ':']) := by
  rw [Token.holds, Bool.or_eq_true] at hholds
  rcases hholds with hopening | hcast
  · have hmark : t.kind.isPunctuation = true ∧ t.kind ≠ .string := by
      revert hopening
      cases t.kind <;> simp [TokenKind.isOpening, TokenKind.isPunctuation]
    exact ⟨hmark.2, Or.inl (h.mark hmark.1)⟩
  · simp only [isCast, Bool.and_eq_true, decide_eq_true_eq, List.isPrefixOf_iff_prefix] at hcast
    obtain ⟨hkind, more, hmore⟩ := hcast
    refine ⟨by simp [hkind], Or.inr ?_⟩
    have htext := strict.tame.operators.colon _ (h.operator hkind) (by rw [← hmore]; simp)
    simpa [spelling, hkind] using htext

theorem Token.Known.hugs_cases (strict : d.Strict) (h : t.Known o d) (hhugs : t.hugs = true) :
    (∃ c, (t.spelling o).toList = [c] ∧ Lexeme.isSeparator c = true ∧
      Lexeme.isQuote c = false) ∨ (t.spelling o).toList = [':', ':'] := by
  by_cases hcast : t.isCast = true
  · exact (h.holds_cases strict (by simp [Token.holds, hcast])).2
  · left
    apply h.mark
    revert hhugs hcast
    unfold Token.hugs Draft.hugsLeft
    cases t.kind <;> simp [TokenKind.isPunctuation]

theorem calm_of_mark {text : List Char}
    (h : (∃ c, text = [c] ∧ Lexeme.isSeparator c = true ∧ Lexeme.isQuote c = false) ∨
      text = [':', ':']) : ∀ c ∈ text, isCalm c = true ∧ Lexeme.isQuote c = false := by
  rcases h with ⟨e, rfl, hseparator, hquote⟩ | rfl
  · simpa [isCalm, hseparator] using hquote
  · intro c hc
    obtain rfl : c = ':' := by simpa using hc
    exact ⟨rfl, rfl⟩

theorem Token.Known.calm_of_holds (strict : d.Strict) (h : t.Known o d) (hholds : t.holds = true) :
    ∀ c ∈ (t.spelling o).toList.getLast?, isCalm c = true :=
  fun c hc => (calm_of_mark (h.holds_cases strict hholds).2 c (List.mem_of_getLast? hc)).1

theorem Token.Known.head_of_hugs (strict : d.Strict) (h : t.Known o d) (hhugs : t.hugs = true) :
    ∃ c cs, (t.spelling o).toList = c :: cs ∧ isCalm c = true ∧ Lexeme.isQuote c = false := by
  have hcases := h.hugs_cases strict hhugs
  cases htext : (t.spelling o).toList with
  | nil => simp [htext] at hcases
  | cons c cs => exact ⟨c, cs, rfl, calm_of_mark hcases c (by simp [htext])⟩

end Tokens

namespace Piece
variable {o : Options} {d : Dialect}

/-- Pieces as a layout puts them: tokens that a text can have, which stand apart where they have to. -/
structure Arranged (o : Options) (d : Dialect) (pieces : List Piece) : Prop where
  known : ∀ p ∈ pieces, p.token.Known o d
  blank : ∀ p ∈ pieces, Scrap.isBlank p.gap
  apart : pieces.IsChain Apart

theorem arranged_append {ps qs : List Piece} :
    Arranged o d (ps ++ qs) ↔ Arranged o d ps ∧ Arranged o d qs ∧
      ∀ p ∈ ps.getLast?, ∀ q ∈ qs.head?, Apart p q := by
  constructor
  · rintro ⟨hknown, hblank, hapart⟩
    rw [List.forall_mem_append] at hknown hblank
    rw [List.isChain_append] at hapart
    exact ⟨⟨hknown.1, hblank.1, hapart.1⟩, ⟨hknown.2, hblank.2, hapart.2.1⟩, hapart.2.2⟩
  · rintro ⟨hps, hqs, hmeet⟩
    exact ⟨List.forall_mem_append.mpr ⟨hps.known, hqs.known⟩,
      List.forall_mem_append.mpr ⟨hps.blank, hqs.blank⟩,
      List.isChain_append.mpr ⟨hps.apart, hqs.apart, hmeet⟩⟩

theorem arranged_cons {p : Piece} {pieces : List Piece} :
    Arranged o d (p :: pieces) ↔ (p.token.Known o d ∧ Scrap.isBlank p.gap) ∧
      Arranged o d pieces ∧ ∀ q ∈ pieces.head?, Apart p q := by
  constructor
  · rintro ⟨hknown, hblank, hapart⟩
    rw [List.forall_mem_cons] at hknown hblank
    rw [List.isChain_cons] at hapart
    exact ⟨⟨hknown.1, hblank.1⟩, ⟨hknown.2, hblank.2, hapart.2⟩, hapart.1⟩
  · rintro ⟨⟨hknown, hblank⟩, h, hmeet⟩
    exact ⟨List.forall_mem_cons.mpr ⟨hknown, h.known⟩, List.forall_mem_cons.mpr ⟨hblank, h.blank⟩,
      List.isChain_cons.mpr ⟨hmeet, h.apart⟩⟩

theorem unquoted_flat {pieces : List Piece} (h : Arranged o d pieces)
    (hplain : ∀ p ∈ pieces, p.token.kind ≠ .string) : Unquoted (flat o pieces) := by
  intro c hc
  obtain ⟨p, hp, hc⟩ := List.mem_flatMap.mp hc
  rcases List.mem_append.mp hc with hc | hc
  · exact unquoted_blank (h.blank p hp) c hc
  · exact ((h.known p hp).inert (hplain p hp)).unquoted c hc

/-- What follows a token that does not hold it begins with white space, a mark or a cast. -/
theorem calm_of_apart (strict : d.Strict) {p q : Piece} {pieces : List Piece} {more : List Char}
    (hknown : q.token.Known o d) (hblank : Scrap.isBlank q.gap) (hapart : Apart p q) :
    p.token.holds = true ∨ ∀ c ∈ (flat o (q :: pieces) ++ more).head?, isCalm c = true := by
  cases hgap : q.gap with
  | nil =>
    refine (hapart hgap).imp id fun hhugs => ?_
    obtain ⟨e, es, htext, hcalm, -⟩ := hknown.head_of_hugs strict hhugs
    intro c hc
    rw [flat_cons, hgap, htext] at hc
    obtain rfl : e = c := by simpa using hc
    exact hcalm
  | cons e gap =>
    right
    intro c hc
    rw [flat_cons, hgap] at hc
    obtain rfl : e = c := by simpa using hc
    exact calm_of_blank hblank e (by simp [hgap])

theorem uncommented_flat (strict : d.Strict) {pieces : List Piece} (h : Arranged o d pieces)
    (hplain : ∀ p ∈ pieces, p.token.kind ≠ .string) {more : List Char} (hmore : Uncommented more)
    (hcalm : (∀ c ∈ more.head?, isCalm c = true) ∨
      ∀ p ∈ pieces.getLast?, p.token.holds = true) : Uncommented (flat o pieces ++ more) := by
  induction pieces with
  | nil => exact hmore
  | cons p pieces ih =>
    obtain ⟨⟨hp, hgap⟩, h, hapart⟩ := arranged_cons.mp h
    obtain ⟨hnostring, hplain⟩ := List.forall_mem_cons.mp hplain
    have hrest : Uncommented (flat o pieces ++ more) :=
      ih h hplain (hcalm.imp id fun h q hq => h q (List.mem_getLast?_cons hq))
    -- where two pieces meet, the first ends calmly or the second begins so
    have hmeet : p.token.holds = true ∨ ∀ c ∈ (flat o pieces ++ more).head?, isCalm c = true := by
      cases pieces with
      | nil => exact hcalm.symm.imp (fun h => h p rfl) id
      | cons q pieces =>
        exact calm_of_apart strict (h.known q (by simp)) (h.blank q (by simp)) (hapart q rfl)
    rw [flat_cons, List.append_assoc, List.append_assoc]
    apply uncommented_append (uncommented_blank hgap)
    · apply uncommented_append (hp.inert hnostring).uncommented hrest
      exact hmeet.imp (hp.calm_of_holds strict) id
    · exact Or.inl fun c hc => calm_of_blank hgap c (List.mem_of_getLast? hc)

/-- Before white space, pieces without literals are free of quotes and comments. -/
theorem plain_flat (strict : d.Strict) {pieces : List Piece} (h : Arranged o d pieces)
    (hplain : ∀ p ∈ pieces, p.token.kind ≠ .string) {tail : List Char} (htail : Scrap.isBlank tail) :
    Uncommented (flat o pieces ++ tail) ∧ Unquoted (flat o pieces ++ tail) := by
  constructor
  · apply uncommented_flat strict h hplain (uncommented_blank htail)
    exact Or.inl fun c hc => calm_of_blank htail c (List.mem_of_head? hc)
  · exact List.forall_mem_append.mpr ⟨unquoted_flat h hplain, unquoted_blank htail⟩

end Piece

namespace Scrap
open Lexeme
variable {d : Dialect}

/-- The scraps of a prefix: a word, and perhaps an ampersand. -/
def affix (gap word more : List Char) : List Scrap :=
  ⟨gap, .word, word⟩ :: more.map fun c => ⟨[], .operator, [c]⟩

/-- A colon that is left over belongs to the word behind it. -/
theorem stands_colon (strict : d.Strict) {c : Char} {rest : List Char} (hc : c ≠ ':' ∧ c ≠ '=')
    (hseparator : isSeparator c = false) (hcomment : startsComment c rest = false)
    (hzero : Operator.longest d.ops (c :: rest) = 0)
    (hstop : splitWord d.ops [c, ':'] rest = ([], rest)) : Stands d.ops .word [':', c] rest := by
  refine ⟨':', [c], rfl, rfl, by simp [startsComment], ?_⟩
  apply cut_word rfl rfl
  · rw [Operator.longest_eq_zero_iff]
    intro op hop hbegins
    obtain ⟨text, htext, rfl⟩ := List.mem_map.mp hop
    cases hlist : text.toList with
    | nil => rfl
    | cons e es =>
      rw [hlist, List.cons_prefix_cons] at hbegins
      obtain ⟨rfl, hes⟩ := hbegins
      rcases strict.colons text htext (by rw [hlist]; rfl) with rfl | rfl
      · obtain ⟨-, rfl⟩ := List.cons.inj hlist
        exact absurd (List.cons_prefix_cons.mp hes).1.symm hc.1
      · obtain ⟨-, rfl⟩ := List.cons.inj hlist
        exact absurd (List.cons_prefix_cons.mp hes).1.symm hc.2
  · have hgo : continues d.ops [':'] c rest = true := by
      unfold continues
      simp [hseparator, isExponentHead, hcomment, hzero]
    rw [List.singleton_append, splitWord, if_pos hgo, hstop]

theorem stands_ampersand (tame : d.Tame) : Stands d.ops .operator ['&'] [] := by
  refine ⟨'&', [], rfl, rfl, by simp [startsComment], ?_⟩
  apply cut_operator rfl rfl
  have hlower := Operator.length_le_longest (show ['&'] ∈ d.ops from tame.operators.ampersand)
    (show ['&'] <+: ['&'] from List.prefix_rfl)
  have hupper := Operator.longest_le_length d.ops ['&']
  exact Nat.le_antisymm hupper hlower

/-- The letter of a prefix with an ampersand stands before the ampersand. -/
theorem stands_unicode (strict : d.Strict) {u : Char} (hu : u = 'u' ∨ u = 'U') (rest : List Char) :
    Stands d.ops .word [u] ('&' :: rest) ∧ Stands d.ops .word [':', u] ('&' :: rest) := by
  have tame := strict.tame.operators
  have hlongest : Operator.longest d.ops ('&' :: rest) ≠ 0 := by
    have hle := Operator.length_le_longest (show ['&'] ∈ d.ops from tame.ampersand)
      (show ['&'] <+: '&' :: rest from ⟨rest, rfl⟩)
    exact Nat.pos_iff_ne_zero.mp hle
  have hu : Text.isWordChar u = true ∧ u.isAlpha = true ∧ (u ≠ ':' ∧ u ≠ '=') ∧ u ≠ 'e' ∧
      u ≠ 'E' := by
    rcases hu with rfl | rfl <;> decide
  obtain ⟨hplain, hminus, hslash, -⟩ := isWordChar_plain hu.1
  constructor
  · apply Stands.plain tame
    · simp [isPlainWord, hu.1, hu.2.1]
    · exact Or.inr (Or.inr hlongest)
  · apply stands_colon strict hu.2.2.1 hplain
    · simp [startsComment, hminus, hslash]
    · exact longest_word_char tame _ hu.1
    · have hstop : continues d.ops [u, ':'] '&' rest = false := by
        unfold continues
        simp [isExponentHead, hu.2.2.2, hlongest]
      rw [splitWord, hstop]
      rfl

/-- A prefix is legible before a literal, also when a colon is left over before it. -/
theorem legible_affix (strict : d.Strict) {c : Char} {more : List Char} (h : Affix d (c :: more))
    {body : List Char} {scraps : List Scrap} {tail : List Char}
    (hbody : Legible d.ops (⟨[], .quoted, body⟩ :: scraps) tail) :
    Legible d.ops (affix [] [c] more ++ ⟨[], .quoted, body⟩ :: scraps) tail ∧
      Legible d.ops (affix [] [':', c] more ++ ⟨[], .quoted, body⟩ :: scraps) tail := by
  have tame := strict.tame
  have hnil : isBlank [] := by simp [isBlank]
  have hcolon : c ≠ ':' := fun hc => (h.inert strict).2 (by simp [hc])
  obtain ⟨q, cs, hq, rfl⟩ : ∃ q cs, isQuote q = true ∧ body = q :: cs := by
    cases hbody with
    | cons _ hstands _ =>
      obtain ⟨q, cs, rfl, hquote, -⟩ := stands_head hstands
      exact ⟨q, cs, hquote rfl, rfl⟩
  have hseparator : isSeparator q = true := by simp [isSeparator, hq]
  have hclean : ∀ before, Clean before (flat (⟨[], .quoted, q :: cs⟩ :: scraps) ++ tail) := by
    intro before
    simpa using Clean.of_separator hseparator
  cases h with
  | letter hstands =>
    refine ⟨.cons hnil (hstands.extend tame.operators (hclean _) (by simp)) hbody,
      .cons hnil ?_ hbody⟩
    obtain ⟨hword, -, hhead⟩ := hstands.word_chars
    have hextend := hstands.extend tame.operators (hclean _) (by simp)
    obtain ⟨e, word, heq, -, hcomment, hcut⟩ := hextend
    obtain ⟨rfl, rfl⟩ := List.cons.inj heq
    rcases cut_cases hcut with ⟨_, h, _⟩ | ⟨_, _, _, h, _⟩ | ⟨_, _, h, _⟩ | ⟨_, _, _, hzero, _⟩
    · cases h
    · cases h
    · cases h
    · apply stands_colon strict ⟨hcolon, ?_⟩ (hword c List.mem_cons_self) hcomment hzero
        (splitWord_clean tame.operators _ (hclean []))
      rintro rfl
      exact hhead '=' rfl (strict.sign (by simp))
  | unicode hu _ =>
    have hamp : Legible d.ops (⟨[], .operator, ['&']⟩ :: ⟨[], .quoted, q :: cs⟩ :: scraps) tail :=
      .cons hnil ((stands_ampersand tame).extend tame.operators (hclean _) (by simp)) hbody
    obtain ⟨hstands, hcolon⟩ := stands_unicode strict hu
      (flat (⟨[], .quoted, q :: cs⟩ :: scraps) ++ tail)
    exact ⟨.cons hnil (by simpa using hstands) hamp, .cons hnil (by simpa using hcolon) hamp⟩

/-- The literals that a list of scraps is read as. -/
def literals (d : Dialect) (afterNewline spaced : Bool) (scraps : List Scrap) : List String :=
  Token.literals (resolve d (classify d (lexemes afterNewline spaced scraps)))

theorem lexemes_append (afterNewline spaced : Bool) (scraps more : List Scrap) :
    ∃ afterNewline' spaced', lexemes afterNewline spaced (scraps ++ more) =
      lexemes afterNewline spaced scraps ++ lexemes afterNewline' spaced' more := by
  induction scraps generalizing afterNewline spaced with
  | nil => exact ⟨afterNewline, spaced, rfl⟩
  | cons s scraps ih =>
    obtain ⟨afterNewline', spaced', h⟩ := ih false false
    exact ⟨afterNewline', spaced', by rw [List.cons_append, lexemes, lexemes, h, List.cons_append]⟩

theorem mem_lexemes {afterNewline spaced : Bool} {scraps : List Scrap} {l : Lexeme}
    (h : l ∈ lexemes afterNewline spaced scraps) :
    ∃ s ∈ scraps, l.shape = s.shape ∧ l.text = String.ofList s.text := by
  induction scraps generalizing afterNewline spaced with
  | nil => simp [lexemes] at h
  | cons s scraps ih =>
    rcases List.mem_cons.mp h with rfl | h
    · exact ⟨s, List.mem_cons_self, rfl, rfl⟩
    · obtain ⟨a, ha, hmore⟩ := ih h
      exact ⟨a, List.mem_cons_of_mem s ha, hmore⟩

theorem single_of_shape {l : Lexeme} (h : l.shape ≠ .word) : Single l :=
  fun _ _ _ _ hspells => h hspells.1

theorem single_of_short {l : Lexeme} (h : l.text.toList.length ≤ 2) : Single l := by
  have hlong : ∀ words ∈ Vocabulary.compoundTypes, ∀ w ∈ words, 3 ≤ w.toList.length := by
    decide +kernel
  intro words hwords w hw hspells
  have hlist : l.text.toList.map Text.asciiUpper = w.toList := by
    simpa [Text.spells] using hspells.2
  have hlength := congrArg List.length hlist
  have := hlong words hwords w hw
  rw [List.length_map] at hlength
  omega

theorem single_of_colon {l : Lexeme} (h : ':' ∈ l.text.toList) : Single l := by
  have hwords : ∀ words ∈ Vocabulary.compoundTypes, ∀ w ∈ words, ':' ∉ w.toList := by
    decide +kernel
  intro words hmem w hw hspells
  have hlist : l.text.toList.map Text.asciiUpper = w.toList := by
    simpa [Text.spells] using hspells.2
  apply hwords words hmem w hw
  rw [← hlist]
  exact List.mem_map.mpr ⟨':', h, by decide⟩

theorem colon_of_calm {text : List Char} (hne : text ≠ [])
    (hcalm : ∀ c ∈ text.getLast?, isCalm c = true) (h : ∀ c ∈ text, isSeparator c = false) :
    ':' ∈ text := by
  have hlast := List.getLast?_eq_some_getLast hne
  have hmem := List.mem_of_getLast? hlast
  have hc := hcalm _ hlast
  rw [isCalm, h _ hmem, Bool.false_or, decide_eq_true_eq] at hc
  rwa [hc] at hmem

theorem classify_single {l : Lexeme} (h : Single l) (ls : List Lexeme) :
    classify d (l :: ls) = ⟨ofLexeme d l ls, l.afterNewline, l.spaced⟩ :: classify d ls := by
  apply classify_none
  intro _
  cases hfound : compoundType? (l :: ls) with
  | none => rfl
  | some found =>
    obtain ⟨name, rest⟩ := found
    obtain ⟨words, hwords, -, taken, htaken, hspells⟩ := compoundType?_some hfound
    cases hspells with
    | nil => exact absurd hwords (by decide)
    | @cons w k words taken hw _ =>
      obtain ⟨rfl, -⟩ := List.cons.inj htaken
      exact absurd hw (h _ hwords w List.mem_cons_self)

theorem ofWord_of_not_vocabulary (tame : d.Tame) {word : String}
    (h : isVocabulary (Text.upper word) = false) (beforeParen : Bool) :
    ofWord d word beforeParen = ⟨.ident, word⟩ := by
  apply ofWord_ident
  by_contra hkind
  obtain ⟨hvocabulary, hupper⟩ := ofWord_spelling tame {} hkind
  have hmore := (isVocabulary_upper hvocabulary).1
  rw [hupper, h] at hmore
  cases hmore

theorem classify_operators (more : List Char) {body : List Char} (scraps : List Scrap) :
    classify d (lexemes false false
        (more.map (fun c => ⟨[], .operator, [c]⟩) ++ ⟨[], .quoted, body⟩ :: scraps)) =
      more.map (fun c => ⟨⟨.operator, String.ofList [c]⟩, false, false⟩) ++
        ⟨⟨.string, String.ofList body⟩, false, false⟩ :: classify d (lexemes false false scraps) := by
  induction more with
  | nil => exact classify_single (single_of_shape (by simp)) _
  | cons c more ih =>
    rw [List.map_cons, List.cons_append, lexemes, classify_single (single_of_shape (by simp)), ih]
    rfl

/-- The items of a prefix. -/
def affixItems (afterNewline spaced : Bool) (word more : List Char) : List Spaced :=
  ⟨⟨.ident, String.ofList word⟩, afterNewline, spaced⟩ ::
    more.map fun c => ⟨⟨.operator, String.ofList [c]⟩, false, false⟩

theorem affixItems_not_string {afterNewline spaced : Bool} {word more : List Char} :
    ∀ i ∈ affixItems afterNewline spaced word more, i.token.kind ≠ .string := by
  intro i hi
  rcases List.mem_cons.mp hi with rfl | hi
  · simp
  · obtain ⟨e, -, rfl⟩ := List.mem_map.mp hi
    simp

theorem classify_affix {word : List Char} (hshort : word.length ≤ 2)
    (hident : ∀ beforeParen, ofWord d (String.ofList word) beforeParen =
      ⟨.ident, String.ofList word⟩) (afterNewline spaced : Bool)
    (gap more body : List Char) (scraps : List Scrap) :
    ∃ a s, classify d (lexemes afterNewline spaced
        (affix gap word more ++ ⟨[], .quoted, body⟩ :: scraps)) =
      affixItems a s word more ++
        ⟨⟨.string, String.ofList body⟩, false, false⟩ :: classify d (lexemes false false scraps) := by
  refine ⟨afterNewline || gap.contains '\n', spaced || !gap.isEmpty, ?_⟩
  rw [affix, List.cons_append, lexemes, classify_single (single_of_short (by simpa using hshort)),
    classify_operators, ofLexeme]
  dsimp only
  rw [hident]
  rfl

theorem affix_not_vocabulary (tame : d.Tame) {c : Char} {more : List Char}
    (h : Affix d (c :: more)) :
    isVocabulary (Text.upper (String.ofList [c])) = false ∧
      isVocabulary (Text.upper (String.ofList [':', c])) = false := by
  constructor
  · cases h with
    | letter _ hmem =>
      rcases tame.literalPrefixes _ hmem with hunicode | ⟨hlength, -⟩
      · rw [hunicode]
        decide
      · rw [isVocabulary, hlength]
        exact Bool.and_false _
    | unicode hu => rcases hu with rfl | rfl <;> decide
  · have hcolon : ':' ∈ (Text.upper (String.ofList [':', c])).toList := by
      rw [Text.upper, String.toList_ofList, String.toList_ofList, List.flatMap_cons,
        show Text.upperChar ':' = [':'] by decide]
      simp
    rw [Bool.eq_false_iff]
    intro hvocabulary
    simp only [isVocabulary, isPlainWord, Bool.and_eq_true] at hvocabulary
    have hword := List.all_eq_true.mp hvocabulary.1.2 ':' hcolon
    revert hword
    decide

theorem prefixes_affix {c : Char} {more : List Char} (h : Affix d (c :: more)) (a s : Bool)
    {q : Spaced} (hq : q.token.kind = .string) (hspaced : q.spaced = false) :
    Prefixes d (affixItems a s [c] more) q := by
  refine ⟨?_, hq, hspaced⟩
  cases h with
  | letter _ hmem hsize =>
    refine ⟨_, hmem, .last rfl ?_ ?_⟩
    · rwa [String.empty_append]
    · rw [String.empty_append]
  | unicode hu hmem =>
    refine ⟨"U&", hmem, .more rfl ?_ rfl (.last rfl ?_ ?_)⟩ <;>
      · rcases hu with rfl | rfl <;> dsimp only <;> decide

section Read
variable (strict : d.Strict) {scraps more : List Scrap} {gap body tail : List Char}
  (hplain : ∀ a ∈ scraps, a.shape ≠ .quoted)
include strict hplain

/-- The items before a lexeme that begins one. -/
theorem exists_items {s : Scrap} (hlegible : Legible d.ops (scraps ++ s :: more) tail)
    (hsingle : ∀ l : Lexeme, l.shape = s.shape → l.text = String.ofList s.text → Single l)
    (afterNewline spaced : Bool) :
    ∃ items afterNewline' spaced',
      classify d (lexemes afterNewline spaced (scraps ++ s :: more)) =
        items ++ classify d (lexemes afterNewline' spaced' (s :: more)) ∧
      (∀ i ∈ items, i.token.kind ≠ .string) ∧
      ∀ i ∈ items, isPrefixPart i.token = true → i.token.text ≠ "" := by
  obtain ⟨afterNewline', spaced', happend⟩ := lexemes_append afterNewline spaced scraps (s :: more)
  have hstands := hlegible.stands afterNewline spaced
  rw [happend] at hstands ⊢
  have hstands : ∀ l ∈ lexemes afterNewline spaced scraps,
      ∃ rest, Stands d.ops l.shape l.text.toList rest :=
    fun l hl => hstands l (List.mem_append_left _ hl)
  obtain ⟨items, hitems, hmade⟩ := classify_append (d := d)
    (hsingle ⟨s.shape, String.ofList s.text, afterNewline' || s.gap.contains '\n',
      spaced' || !s.gap.isEmpty⟩ rfl rfl) (lexemes afterNewline spaced scraps)
  refine ⟨items, afterNewline', spaced', hitems, ?_, ?_⟩
  · intro i hi
    apply (hmade i hi).not_string hstands
    intro l hl
    obtain ⟨a, ha, hshape, -⟩ := mem_lexemes hl
    rw [hshape]
    exact hplain a ha
  · intro i hi hpart hnil
    apply ((made_item strict {} hstands (hmade i hi)).2 ?_).ne_nil
    · rw [hnil]
      rfl
    · simp only [isPrefixPart, Bool.or_eq_true, decide_eq_true_eq] at hpart
      exact hpart.imp id fun hoperator => by simp [hoperator, TokenKind.shape]

/-- Behind fresh text a literal is read with its prefix. -/
theorem literals_affix {c : Char} {signs : List Char} (h : Affix d (c :: signs))
    (hlegible : Legible d.ops
      (scraps ++ (affix gap [c] signs ++ ⟨[], .quoted, body⟩ :: more)) tail)
    (afterNewline spaced : Bool) :
    literals d afterNewline spaced
        (scraps ++ (affix gap [c] signs ++ ⟨[], .quoted, body⟩ :: more)) =
      String.ofList (c :: signs ++ body) :: literals d false false more := by
  have hident := ofWord_of_not_vocabulary strict.tame (affix_not_vocabulary strict.tame h).1
  obtain ⟨items, afterNewline', spaced', hitems, hstrings, hne⟩ := exists_items strict hplain
    hlegible (fun l _ htext => single_of_short (by simp [htext])) afterNewline spaced
  obtain ⟨a, s, hclassify⟩ :=
    classify_affix (by simp) hident afterNewline' spaced' gap signs body more
  have hprefixes := prefixes_affix h a s
    (q := ⟨⟨.string, String.ofList body⟩, false, false⟩) rfl rfl
  have hread := literals_resolve_prefixed strict.tame hstrings ?_ hprefixes
    (classify d (lexemes false false more))
  · rw [← hclassify] at hread
    have htext : joinedText "" (affixItems a s [c] signs) ++ String.ofList body =
        String.ofList (c :: signs ++ body) := by
      apply String.toList_injective
      rw [String.toList_append, Unjoined.toList_joinedText]
      simp [affixItems, List.flatMap_map]
    rw [htext] at hread
    exact (congrArg (fun l => Token.literals (resolve d l)) hitems).trans hread
  · intro i hi hpart
    rcases List.mem_append.mp hi with hi | hi
    · exact hne i hi hpart
    · rcases List.mem_cons.mp hi with rfl | hi
      · simp
      · obtain ⟨e, -, rfl⟩ := List.mem_map.mp hi
        simp

/-- A colon that is left over takes the prefix away. -/
theorem literals_colon {c : Char} {signs : List Char} (h : Affix d (c :: signs))
    (hlegible : Legible d.ops
      (scraps ++ (affix gap [':', c] signs ++ ⟨[], .quoted, body⟩ :: more)) tail)
    (afterNewline spaced : Bool) :
    literals d afterNewline spaced
        (scraps ++ (affix gap [':', c] signs ++ ⟨[], .quoted, body⟩ :: more)) =
      String.ofList body :: literals d false false more := by
  have hident := ofWord_of_not_vocabulary strict.tame (affix_not_vocabulary strict.tame h).2
  obtain ⟨items, afterNewline', spaced', hitems, hstrings, hne⟩ := exists_items strict hplain
    hlegible (fun l _ htext => single_of_short (by simp [htext])) afterNewline spaced
  obtain ⟨a, s, hclassify⟩ :=
    classify_affix (by simp) hident afterNewline' spaced' gap signs body more
  have hplain : ∀ i ∈ items ++ affixItems a s [':', c] signs, i.token.kind ≠ .string :=
    fun i hi => (List.mem_append.mp hi).elim (hstrings i) (affixItems_not_string i)
  -- a prefix would hold the colon, or be the ampersand alone
  have hnone : ∀ chain, chain <:+ items ++ affixItems a s [':', c] signs →
      ¬Prefixes d chain ⟨⟨.string, String.ofList body⟩, false, false⟩ := by
    intro chain hchain hprefixes
    obtain ⟨p, -, hcompletes⟩ := hprefixes.completes
    have hcolon : (⟨⟨.ident, String.ofList [':', c]⟩, a, s⟩ : Spaced) ∉ chain := by
      intro hmem
      have hnot := hprefixes.not_mem strict.tame (Or.inl rfl) _ hmem
      simp at hnot
    rcases List.suffix_or_suffix_of_suffix hchain (List.suffix_append items _) with
      hsuffix | hsuffix
    · rcases List.suffix_cons_iff.mp hsuffix with rfl | hsuffix
      · exact hcolon List.mem_cons_self
      · cases h with
        | letter => exact hcompletes.ne_nil (List.suffix_nil.mp hsuffix)
        | unicode =>
          rcases List.suffix_cons_iff.mp hsuffix with rfl | hsuffix
          · exact not_prefixes_ampersand strict.tame rfl hprefixes
          · exact hcompletes.ne_nil (List.suffix_nil.mp hsuffix)
    · exact hcolon (hsuffix.subset List.mem_cons_self)
  have hread := literals_resolve_bare hplain rfl hnone (classify d (lexemes false false more))
  rw [List.append_assoc, ← hclassify] at hread
  exact (congrArg (fun l => Token.literals (resolve d l)) hitems).trans hread

omit hplain in
/-- A part of a prefix does not end calmly, unless it holds a colon. -/
theorem ofLexeme_colon {l : Lexeme} {rest : List Lexeme} {after : List Char}
    (hstands : Stands d.ops l.shape l.text.toList after) (hquoted : l.shape ≠ .quoted)
    (hcalm : ∀ c ∈ l.text.toList.getLast?, isCalm c = true)
    (hpart : isPrefixPart (ofLexeme d l rest) = true) :
    ':' ∈ (ofLexeme d l rest).text.toList := by
  have hcolon := colon_of_calm hstands.ne_nil hcalm
  unfold ofLexeme at hpart ⊢
  cases hshape : l.shape with
  | quoted => exact absurd hshape hquoted
  | operator =>
    rw [hshape] at hstands
    exact hcolon fun c hc => (strict.tame.operators.bare _ hstands.mem_operators c hc).1
  | mark kind =>
    rw [hshape] at hstands hpart
    have hpunctuation := hstands.isPunctuation.1
    revert hpunctuation hpart
    cases kind <;> simp [isPrefixPart, TokenKind.isPunctuation]
  | word =>
    rw [hshape] at hstands hpart
    have hident : (ofWord d l.text (startsWithParen rest)).kind = .ident := by
      simp only [isPrefixPart, Bool.or_eq_true, decide_eq_true_eq] at hpart
      refine hpart.resolve_right fun hoperator => ?_
      have hword := ofWord_shape d l.text (startsWithParen rest)
      rw [hoperator] at hword
      cases hword
    dsimp only
    rw [ofWord_ident hident]
    exact hcolon hstands.word_chars.1

theorem literals_spaced (hgap : gap ≠ [])
    (hlegible : Legible d.ops (scraps ++ ⟨gap, .quoted, body⟩ :: more) tail)
    (afterNewline spaced : Bool) :
    literals d afterNewline spaced (scraps ++ ⟨gap, .quoted, body⟩ :: more) =
      String.ofList body :: literals d false false more := by
  obtain ⟨items, afterNewline', spaced', hitems, hstrings, -⟩ := exists_items strict hplain
    hlegible (fun l hshape _ => single_of_shape (by simp [hshape])) afterNewline spaced
  rw [lexemes, classify_single (single_of_shape (by simp)), ofLexeme] at hitems
  have hnone : ∀ chain, chain <:+ items → ¬Prefixes d chain
      ⟨⟨.string, String.ofList body⟩, afterNewline' || gap.contains '\n',
        spaced' || !gap.isEmpty⟩ := by
    intro chain _ hprefixes
    have hspaced := (Bool.or_eq_false_iff.mp hprefixes.spaced).2
    exact hgap (by simpa using hspaced)
  have hread := literals_resolve_bare hstrings rfl hnone (classify d (lexemes false false more))
  exact (congrArg (fun l => Token.literals (resolve d l)) hitems).trans hread

omit strict in
theorem literals_none (hlegible : Legible d.ops scraps tail) (afterNewline spaced : Bool) :
    literals d afterNewline spaced scraps = [] := by
  apply literals_resolve_nil
  intro i hi
  apply (classify_mem hi).not_string (hlegible.stands afterNewline spaced)
  intro l hl
  obtain ⟨a, ha, hshape, -⟩ := mem_lexemes hl
  rw [hshape]
  exact hplain a ha

omit strict hplain in
theorem literals_first (d : Dialect) (afterNewline spaced : Bool) (gap body : List Char)
    (more : List Scrap) :
    literals d afterNewline spaced (⟨gap, .quoted, body⟩ :: more) =
      String.ofList body :: literals d false false more := by
  rw [literals, lexemes, classify_single (single_of_shape (by simp)), ofLexeme]
  refine @literals_resolve_bare d [] _ (by simp) rfl ?_ _
  intro chain hchain hprefixes
  obtain ⟨p, -, hcompletes⟩ := hprefixes.completes
  exact hcompletes.ne_nil (List.suffix_nil.mp hchain)

theorem literals_calm {b : Scrap} (hb : b.shape ≠ .quoted)
    (hcalm : ∀ c ∈ b.text.getLast?, isCalm c = true)
    (hlegible : Legible d.ops (scraps ++ b :: ⟨[], .quoted, body⟩ :: more) tail)
    (afterNewline spaced : Bool) :
    literals d afterNewline spaced (scraps ++ b :: ⟨[], .quoted, body⟩ :: more) =
      String.ofList body :: literals d false false more := by
  obtain ⟨after, hstands⟩ : ∃ after, Stands d.ops b.shape b.text after := by
    cases hlegible.of_append with
    | cons _ hstands _ => exact ⟨_, hstands⟩
  have hsingle : ∀ l : Lexeme, l.shape = b.shape → l.text = String.ofList b.text → Single l := by
    intro l hshape htext
    by_cases hword : l.shape = .word
    · rw [hshape] at hword
      rw [hword] at hstands
      apply single_of_colon
      rw [htext, String.toList_ofList]
      exact colon_of_calm hstands.ne_nil hcalm hstands.word_chars.1
    · exact single_of_shape hword
  obtain ⟨items, afterNewline', spaced', hitems, hstrings, -⟩ := exists_items strict hplain
    hlegible hsingle afterNewline spaced
  obtain ⟨l, hshape, htext, hlexemes⟩ : ∃ l : Lexeme, l.shape = b.shape ∧
      l.text = String.ofList b.text ∧
      lexemes afterNewline' spaced' (b :: ⟨[], .quoted, body⟩ :: more) =
        l :: lexemes false false (⟨[], .quoted, body⟩ :: more) := ⟨_, rfl, rfl, rfl⟩
  rw [← hshape, ← @String.toList_ofList b.text, ← htext] at hstands
  rw [← hshape] at hb
  rw [← @String.toList_ofList b.text, ← htext] at hcalm
  rw [hlexemes, classify_single (hsingle l hshape htext), lexemes,
    classify_single (single_of_shape (by simp))] at hitems
  have hplain : ∀ i ∈ items ++ [⟨ofLexeme d l (lexemes false false (⟨[], .quoted, body⟩ :: more)),
      l.afterNewline, l.spaced⟩], i.token.kind ≠ .string := by
    intro i hi
    rcases List.mem_append.mp hi with hi | hi
    · exact hstrings i hi
    · have hmade : Made d [l] i := by
        rw [List.mem_singleton.mp hi]
        exact Or.inr ⟨l, List.mem_cons_self, _, rfl⟩
      exact hmade.not_string (by simpa using ⟨after, hstands⟩) (by simpa using hb)
  have hnone : ∀ chain, chain <:+ items ++ [⟨ofLexeme d l (lexemes false false
      (⟨[], .quoted, body⟩ :: more)), l.afterNewline, l.spaced⟩] →
      ¬Prefixes d chain ⟨⟨.string, String.ofList body⟩, false, false⟩ := by
    intro chain hchain hprefixes
    obtain ⟨p, -, hcompletes⟩ := hprefixes.completes
    have hlast : ⟨ofLexeme d l (lexemes false false (⟨[], .quoted, body⟩ :: more)),
        l.afterNewline, l.spaced⟩ ∈ chain := by
      rcases List.suffix_or_suffix_of_suffix hchain (List.suffix_append items _) with h | h
      · rcases List.suffix_cons_iff.mp h with rfl | h
        · exact List.mem_cons_self
        · exact absurd (List.suffix_nil.mp h) hcompletes.ne_nil
      · exact h.subset List.mem_cons_self
    exact hprefixes.not_mem strict.tame (Or.inl rfl) _ hlast
      (ofLexeme_colon strict hstands hb hcalm (hcompletes.parts _ hlast))
  have hread := literals_resolve_bare hplain rfl hnone (classify d (lexemes false false more))
  rw [List.append_assoc] at hread
  exact (congrArg (fun l => Token.literals (resolve d l)) hitems).trans hread

end Read

end Scrap

/-- What stands before a literal: nothing, white space, a mark, or casts. -/
def Precedes (text : List Char) : Prop :=
  text = [] ∨ (∃ c ∈ text.getLast?, Lexeme.isSeparator c = true) ∨ 2 ≤ colonRun text

section Reading
open Scrap
variable {o : Options} {d : Dialect} (strict : d.Strict) {before : List Char}
  (hcomment : Uncommented before) (hquote : Unquoted before) (hbefore : Precedes before)
  {more : List Scrap} {body tail : List Char}
  (hmore : Legible d.ops (⟨[], .quoted, body⟩ :: more) tail)
include strict hcomment hquote hbefore hmore

theorem exists_bare :
    ∃ scraps, Legible d.ops scraps tail ∧ flat scraps = before ++ body ++ flat more ∧
      ∀ afterNewline spaced, literals d afterNewline spaced scraps =
        String.ofList body :: literals d false false more := by
  have hcalm : ∀ c ∈ before.getLast?, isCalm c = true := by
    intro c hc
    rcases hbefore with rfl | ⟨e, he, hseparator⟩ | hle
    · simp at hc
    · obtain rfl : e = c := Option.some.inj (he.symm.trans hc)
      simp [isCalm, hseparator]
    · obtain ⟨first, hfirst, -⟩ := exists_colons before
      obtain ⟨n, hn⟩ : ∃ n, colonRun before = n + 1 := ⟨colonRun before - 1, by omega⟩
      rw [hn, List.replicate_succ', ← List.append_assoc] at hfirst
      rw [hfirst, List.getLast?_concat] at hc
      obtain rfl : ':' = c := Option.some.inj hc
      rfl
  obtain ⟨q, cs, rfl, hq⟩ : ∃ q cs, body = q :: cs ∧ Lexeme.isQuote q = true := by
    cases hmore with
    | cons _ hstands _ =>
      obtain ⟨q, cs, hbody, hquote, -⟩ := stands_head hstands
      exact ⟨q, cs, hbody, hquote rfl⟩
  obtain ⟨scraps, gap, hlegible, rfl, hplain⟩ :=
    exists_legible_of_uncommented d.ops hcomment hquote
  have happend := hlegible.append strict.tame.operators hplain hmore
    (by simpa using Lexeme.Clean.of_separator (by simp [Lexeme.isSeparator, hq]))
  rw [List.append_nil] at happend
  refine ⟨_, happend, by simp [flat_append], ?_⟩
  intro afterNewline spaced
  by_cases hgap : gap = []
  · rw [hgap] at happend hcalm ⊢
    rw [List.append_nil] at hcalm
    rcases List.eq_nil_or_concat scraps with rfl | ⟨first, b, rfl⟩
    · exact literals_first d afterNewline spaced [] _ more
    · rw [List.concat_eq_append] at happend hcalm hplain ⊢
      rw [List.append_assoc, List.singleton_append] at happend ⊢
      have hb : b.text ≠ [] := by
        cases happend.of_append with
        | cons _ hstands _ => exact hstands.ne_nil
      refine literals_calm strict (fun a ha => hplain a (List.mem_append_left _ ha))
        (hplain b (by simp)) ?_ happend afterNewline spaced
      intro c hc
      apply hcalm
      rw [flat_append, flat_cons, flat_nil, List.append_nil, ← List.append_assoc,
        List.getLast?_append_of_ne_nil _ hb]
      exact hc
  · exact literals_spaced strict hplain hgap happend afterNewline spaced

theorem exists_prefixed {c : Char} {signs : List Char} (h : Affix d (c :: signs)) :
    ∃ scraps, Legible d.ops scraps tail ∧
      flat scraps = before ++ (c :: signs ++ body) ++ flat more ∧
      ∀ afterNewline spaced, literals d afterNewline spaced scraps =
        (if colonRun before % 2 = 0 then String.ofList (c :: signs ++ body) else
          String.ofList body) :: literals d false false more := by
  obtain ⟨hplain, hcolon⟩ := legible_affix strict h hmore
  have hflat : ∀ gap word, flat (affix gap word signs) = gap ++ word ++ signs := by
    intro gap word
    rw [affix, flat_cons, flat, List.flatMap_map]
    simp
  by_cases heven : colonRun before % 2 = 0
  · have hfresh : Fresh before :=
      hbefore.imp id fun h => h.imp id fun h => ⟨heven, by omega⟩
    obtain ⟨scraps, gap, hscraps, hquoted, hlegible⟩ :=
      hplain.after strict.tame.operators hcomment hquote hfresh rfl
    refine ⟨scraps ++ (affix gap [c] signs ++ ⟨[], .quoted, body⟩ :: more), hlegible, ?_, ?_⟩
    · rw [flat_append, flat_append, hflat, flat_cons, ← hscraps]
      simp
    · intro afterNewline spaced
      rw [if_pos heven]
      exact literals_affix strict hquoted h hlegible afterNewline spaced
  · obtain ⟨first, hfirst, hlast⟩ := exists_colons before
    obtain ⟨n, hn⟩ : ∃ n, colonRun before = n + 1 := ⟨colonRun before - 1, by omega⟩
    rw [hn, List.replicate_succ', ← List.append_assoc] at hfirst
    have hrun := colonRun_replicate hlast n
    have hfresh : Fresh (first ++ List.replicate n ':') := by
      refine Or.inr (Or.inr ⟨by omega, ?_⟩)
      rcases hbefore with rfl | ⟨e, he, hseparator⟩ | hle
      · cases hn
      · rw [hfirst, List.getLast?_concat] at he
        obtain rfl : ':' = e := Option.some.inj he
        cases hseparator
      · omega
    rw [hfirst] at hcomment hquote
    obtain ⟨scraps, gap, hscraps, hquoted, hlegible⟩ :=
      hcolon.after strict.tame.operators hcomment.left_of_append
        (fun e he => hquote e (List.mem_append_left _ he)) hfresh rfl
    refine ⟨scraps ++ (affix gap [':', c] signs ++ ⟨[], .quoted, body⟩ :: more), hlegible, ?_, ?_⟩
    · rw [flat_append, flat_append, hflat, flat_cons, hfirst, ← hscraps]
      simp
    · intro afterNewline spaced
      rw [if_neg heven]
      exact literals_colon strict hquoted h hlegible afterNewline spaced

end Reading

namespace Piece
variable {o : Options} {d : Dialect}

/-- The literals that a layout is read as, when `before` stands before it. An odd number of colons
takes the prefix of a literal away. -/
def readings (o : Options) (before : List Char) : List Piece → List String
  | [] => []
  | p :: pieces =>
    let more := readings o (before ++ p.gap ++ (p.token.spelling o).toList) pieces
    if p.token.kind = .string then
      (if colonRun (before ++ p.gap) % 2 = 0 then p.token.text else String.ofList p.token.body) ::
        more
    else more

theorem stands_hugged (strict : d.Strict) {t : Token} {body : List Char} (hknown : t.Known o d)
    (hhugs : t.hugs = true) (hstands : Lexeme.Stands d.ops .quoted body [])
    (hclosed : Lexeme.isClosed body = true) (more : List Char) :
    Lexeme.Stands d.ops .quoted body ((t.spelling o).toList ++ more) := by
  have tame := strict.tame.operators
  obtain ⟨c, cs, hbody, hquote, -⟩ := Scrap.stands_head hstands
  obtain ⟨e, es, htext, -, hnot⟩ := hknown.head_of_hugs strict hhugs
  have hfree : ∀ x ∈ body.head?, ((t.spelling o).toList ++ more).head? ≠ some x := by
    rw [hbody, htext]
    intro x hx heq
    obtain rfl : c = x := by simpa using hx
    obtain rfl : e = c := by simpa using heq
    rw [hquote rfl] at hnot
    cases hnot
  have hclean : Lexeme.Clean body ((t.spelling o).toList ++ more) := by
    rcases hknown.hugs_cases strict hhugs with ⟨c, hc, hseparator, -⟩ | hcast
    · rw [hc]
      exact Lexeme.Clean.of_separator hseparator
    · rw [hcast]
      obtain ⟨x, hlast, hx⟩ := hstands.getLast_quoted hclosed
      refine Or.inr (Or.inr ⟨_, rfl, ?_⟩)
      rw [hlast]
      rintro ⟨⟩
      cases hx
  exact hstands.extend tame hclean fun _ => ⟨hclosed, hfree⟩

/-- The quoted part of a literal stands before what follows the literal in a layout. -/
theorem stands_body (strict : d.Strict) {p : Piece} {pieces : List Piece} {tail : List Char}
    (h : Arranged o d (p :: pieces)) (hp : p.token.kind = .string) (htail : Scrap.isBlank tail)
    (hclosed : pieces ≠ [] ∨ tail ≠ [] → p.token.isOpen = false) :
    Lexeme.Stands d.ops .quoted p.token.body (flat o pieces ++ tail) := by
  have tame := strict.tame.operators
  obtain ⟨⟨hknown, -⟩, h, hapart⟩ := arranged_cons.mp h
  obtain ⟨affix, -, hstands, -⟩ := hknown.parts strict hp
  have hclosed : pieces ≠ [] ∨ tail ≠ [] → Lexeme.isClosed p.token.body = true := by
    intro hmore
    have hopen := hclosed hmore
    rw [isOpen_eq, hp] at hopen
    simpa using hopen
  cases pieces with
  | nil =>
    by_cases hnil : tail = []
    · rw [hnil]
      exact hstands
    · have hblank := @Scrap.stands_blank d.ops tame _ _ tail [] hstands htail hnil
        fun _ => hclosed (Or.inr hnil)
      rwa [List.append_nil] at hblank
  | cons q pieces =>
    have hclosed := hclosed (Or.inl (List.cons_ne_nil q pieces))
    rw [flat_cons, List.append_assoc, List.append_assoc]
    by_cases hgap : q.gap = []
    · rw [hgap, List.nil_append]
      have hhugs : q.token.hugs = true := by
        refine (hapart q rfl hgap).resolve_left fun hholds => ?_
        exact (hknown.holds_cases strict hholds).1 hp
      exact stands_hugged strict (h.known q (by simp)) hhugs hstands hclosed _
    · exact Scrap.stands_blank tame hstands (h.blank q (by simp)) hgap fun _ => hclosed

/-- What stands before a literal of a layout, behind the literal before it. -/
theorem precedes_flat (strict : d.Strict) {pieces : List Piece} {p : Piece}
    (h : Arranged o d (pieces ++ [p])) (hp : p.token.kind = .string) :
    Precedes (flat o pieces ++ p.gap) := by
  obtain ⟨h, hlast, hapart⟩ := arranged_append.mp h
  by_cases hgap : p.gap = []
  · rw [hgap, List.append_nil]
    rcases List.eq_nil_or_concat pieces with rfl | ⟨first, q, rfl⟩
    · exact Or.inl rfl
    · rw [List.concat_eq_append] at hapart h ⊢
      have hholds : q.token.holds = true := by
        refine (hapart q (by simp) p rfl hgap).resolve_right fun hhugs => ?_
        simp [Token.hugs, Draft.hugsLeft, isCast, hp] at hhugs
      rw [flat_append, flat_cons, flat_nil, List.append_nil, ← List.append_assoc]
      rcases ((h.known q (by simp)).holds_cases strict hholds).2 with ⟨c, hc, hseparator, -⟩ | hcast
      · rw [hc]
        exact Or.inr (Or.inl ⟨c, List.getLast?_concat .., hseparator⟩)
      · rw [hcast]
        exact Or.inr (Or.inr (by simp [colonRun]))
  · have hend := List.getLast?_eq_some_getLast hgap
    have hblank := hlast.blank p List.mem_cons_self
    refine Or.inr (Or.inl ⟨p.gap.getLast hgap, ?_, ?_⟩)
    · rw [List.getLast?_append_of_ne_nil _ hgap]
      exact hend
    · simp [Lexeme.isSeparator, hblank _ (List.mem_of_getLast? hend)]

theorem spelling_literal (strict : d.Strict) {t : Token} (hknown : t.Known o d)
    (hkind : t.kind = .string) :
    ∃ affix, (t.spelling o).toList = affix ++ t.body ∧ t.text = String.ofList (affix ++ t.body) ∧
      Lexeme.Stands d.ops .quoted t.body [] ∧ (affix = [] ∨ Affix d affix) := by
  obtain ⟨affix, htext, hstands, haffix⟩ := hknown.parts strict hkind
  refine ⟨affix, ?_, ?_, hstands, haffix⟩
  · rw [← htext]
    simp [spelling, hkind, TokenKind.isVerbatim]
  · rw [← htext, String.ofList_toList]

/-- How a literal is read behind pieces that are none. -/
theorem read_literal (strict : d.Strict) {first : List Piece} {p : Piece}
    (h : Arranged o d (first ++ [p])) (hplain : ∀ q ∈ first, q.token.kind ≠ .string)
    (hp : p.token.kind = .string) {scraps : List Scrap} {rest : List Char}
    (hbody : Scrap.Legible d.ops (⟨[], .quoted, p.token.body⟩ :: scraps) rest) :
    ∃ all, Scrap.Legible d.ops all rest ∧
      Scrap.flat all = flat o (first ++ [p]) ++ Scrap.flat scraps ∧
      ∀ afterNewline spaced, Scrap.literals d afterNewline spaced all =
        (if colonRun (flat o first ++ p.gap) % 2 = 0 then p.token.text else
          String.ofList p.token.body) :: Scrap.literals d false false scraps := by
  have hprecedes := precedes_flat strict h hp
  obtain ⟨hfirst, hlast, -⟩ := arranged_append.mp h
  obtain ⟨⟨hknown, hgap⟩, -⟩ := arranged_cons.mp hlast
  obtain ⟨hcomment, hquote⟩ := plain_flat strict hfirst hplain hgap
  obtain ⟨affix, hspelling, htext, -, haffix⟩ := spelling_literal strict hknown hp
  rw [htext, flat_append, flat_cons, flat_nil, List.append_nil, hspelling, ← List.append_assoc]
  rcases haffix with rfl | haffix
  · simpa using exists_bare strict hcomment hquote hprecedes hbody
  · obtain ⟨c, signs, rfl⟩ := List.exists_cons_of_ne_nil (haffix.inert strict).1.ne_nil
    exact exists_prefixed strict hcomment hquote hprecedes hbody haffix

theorem getLast_literal (strict : d.Strict) {p : Piece} (hknown : p.token.Known o d)
    (hp : p.token.kind = .string) (hopen : p.token.isOpen = false) (before : List Char) :
    (before ++ (p.token.spelling o).toList).getLast? ≠ some ':' := by
  obtain ⟨affix, hspelling, -, hbody, -⟩ := spelling_literal strict hknown hp
  rw [isOpen_eq, hp] at hopen
  obtain ⟨q, hlast, hq⟩ := hbody.getLast_quoted (by simpa using hopen)
  rw [hspelling, ← List.append_assoc, List.getLast?_append_of_ne_nil _ hbody.ne_nil, hlast]
  rintro ⟨⟩
  cases hq

/-- A layout is read, and its literals are the readings of its pieces. -/
theorem exists_readings (strict : d.Strict) {first pieces : List Piece} {before tail : List Char}
    (h : Arranged o d (first ++ pieces)) (hplain : ∀ p ∈ first, p.token.kind ≠ .string)
    (hclosed : pieces.IsChain fun p _ => p.token.isOpen = false) (htail : Scrap.isBlank tail)
    (hlast : tail = [] ∨ ∀ p ∈ pieces.getLast?, p.token.isOpen = false)
    (hbefore : pieces ≠ [] → ∃ rest, before = rest ++ flat o first ∧ rest.getLast? ≠ some ':') :
    ∃ scraps rest, Scrap.Legible d.ops scraps rest ∧
      Scrap.flat scraps ++ rest = flat o (first ++ pieces) ++ tail ∧
      ∀ afterNewline spaced,
        Scrap.literals d afterNewline spaced scraps = readings o before pieces := by
  -- `first` holds the pieces behind the last literal, which are read together with the next one
  induction pieces generalizing first before with
  | nil =>
    rw [List.append_nil] at h ⊢
    obtain ⟨hcomment, hquote⟩ := plain_flat strict h hplain htail
    obtain ⟨scraps, rest, hlegible, htext, hquoted⟩ :=
      Scrap.exists_legible_of_uncommented d.ops hcomment hquote
    exact ⟨scraps, rest, hlegible, htext.symm, Scrap.literals_none hquoted hlegible⟩
  | cons p pieces ih =>
    obtain ⟨before', hprevious, hcolon⟩ := hbefore (List.cons_ne_nil p pieces)
    rw [List.isChain_cons] at hclosed
    have hopen : pieces ≠ [] ∨ tail ≠ [] → p.token.isOpen = false := by
      intro hmore
      cases pieces with
      | nil => exact hlast.resolve_left (hmore.resolve_left (by simp)) p rfl
      | cons q pieces => exact hclosed.1 q rfl
    have hlast : tail = [] ∨ ∀ q ∈ pieces.getLast?, q.token.isOpen = false :=
      hlast.imp id fun h q hq => h q (List.mem_getLast?_cons hq)
    have hsplit : first ++ p :: pieces = (first ++ [p]) ++ pieces := by simp
    by_cases hp : p.token.kind = .string
    · have hfrom : Arranged o d (p :: pieces) := (arranged_append.mp h).2.1
      obtain ⟨⟨hknown, -⟩, hbehind, -⟩ := arranged_cons.mp hfrom
      have hend : pieces ≠ [] → _ := fun hne =>
        getLast_literal strict hknown hp (hopen (Or.inl hne)) (before ++ p.gap)
      obtain ⟨scraps, rest, hlegible, hflat, hread⟩ :=
        @ih [] (before ++ p.gap ++ (p.token.spelling o).toList) hbehind (by simp) hclosed.2 hlast
          fun hne => ⟨_, (List.append_nil _).symm, hend hne⟩
      have hstands := stands_body strict hfrom hp htail hopen
      rw [List.nil_append] at hflat
      rw [← hflat] at hstands
      have hbody : Scrap.Legible d.ops (⟨[], .quoted, p.token.body⟩ :: scraps) rest :=
        .cons (by simp [Scrap.isBlank]) hstands hlegible
      rw [hsplit] at h ⊢
      obtain ⟨all, hall, hallflat, hallread⟩ :=
        read_literal strict (arranged_append.mp h).1 hplain hp hbody
      refine ⟨all, rest, hall, ?_, ?_⟩
      · rw [hallflat, List.append_assoc, hflat, flat_append _ (first ++ [p]), List.append_assoc]
      · intro afterNewline spaced
        rw [hallread, hread, readings, if_pos hp, hprevious, List.append_assoc before',
          colonRun_append hcolon]
    · rw [hsplit] at h ⊢
      have hplain : ∀ q ∈ first ++ [p], q.token.kind ≠ .string :=
        List.forall_mem_append.mpr ⟨hplain, by simpa using hp⟩
      have hbefore : before ++ p.gap ++ (p.token.spelling o).toList =
          before' ++ flat o (first ++ [p]) := by
        rw [hprevious]
        simp
      obtain ⟨scraps, rest, hlegible, htext, hread⟩ :=
        ih h hplain hclosed.2 hlast fun _ => ⟨before', hbefore, hcolon⟩
      refine ⟨scraps, rest, hlegible, htext, ?_⟩
      intro afterNewline spaced
      rw [hread, readings]
      simp [hp]

end Piece
end SqlLayout
