import Mathlib.Data.List.Forall2
import SqlLayout.Proofs.Relining

/-! From items back to scraps. The item of a compound type comes apart into words, every other item is
one lexeme, and each is spelled as it is printed. When the letters that are printed are those of the
source, the lexemes are looked up with the same result. -/

namespace SqlLayout
set_option autoImplicit false

namespace Token

/-- Two lexemes that compound types do not tell apart. -/
def Alike (l l' : Lexeme) : Prop :=
  l'.shape = l.shape ∧
    (l.shape = .word → l'.text.toList.map Text.asciiUpper = l.text.toList.map Text.asciiUpper)

section Congruence
variable {ls ls' : List Lexeme}

theorem dropWords?_congr (h : List.Forall₂ Alike ls ls') (ws : List String) :
    dropWords? ws ls' = (dropWords? ws ls).map fun _ => ls'.drop ws.length := by
  induction ws generalizing ls ls' with
  | nil => simp [dropWords?]
  | cons w ws ih =>
    cases h with
    | nil => simp [dropWords?]
    | @cons l l' ls ls' hl hls =>
      have hsame : (l'.shape = .word && Text.spells w l'.text) =
          (l.shape = .word && Text.spells w l.text) := by
        by_cases hword : l.shape = .word
        · simp [hl.1, hword, Text.spells, hl.2 hword]
        · simp [hl.1, hword]
      simp only [dropWords?, hsame]
      split
      · rw [ih hls]
        rfl
      · rfl

theorem compoundType?_congr (h : List.Forall₂ Alike ls ls') :
    compoundType? ls' =
      (compoundType? ls).map fun found => (found.1, ls'.drop (ls.length - found.2.length)) := by
  unfold compoundType?
  induction Vocabulary.compoundTypes with
  | nil => rfl
  | cons words more ih =>
    rw [List.findSome?_cons, List.findSome?_cons, dropWords?_congr h words]
    cases hdrop : dropWords? words ls with
    | none => simpa using ih
    | some rest =>
      have hlength := dropWords?_length hdrop
      simp only [Option.map_some]
      congr 3
      omega

end Congruence

section Classify
variable {d : Dialect}

theorem classify_some {l : Lexeme} {ls rest : List Lexeme} {name : String} (hl : l.shape = .word)
    (h : compoundType? (l :: ls) = some (name, rest)) :
    classify d (l :: ls) = ⟨⟨.type, name⟩, l.afterNewline, l.spaced⟩ :: classify d rest := by
  rw [classify.eq_def]
  dsimp only
  split
  · rename_i h'
    rw [if_pos hl, h] at h'
    cases h'
    rfl
  · rename_i h'
    rw [if_pos hl, h] at h'
    cases h'

theorem classify_none {l : Lexeme} {ls : List Lexeme}
    (h : l.shape = .word → compoundType? (l :: ls) = none) :
    classify d (l :: ls) = ⟨ofLexeme d l ls, l.afterNewline, l.spaced⟩ :: classify d ls := by
  have hnone : (if l.shape = .word then compoundType? (l :: ls) else none) = none := by
    split
    · rename_i hl
      exact h hl
    · rfl
  rw [classify.eq_def]
  dsimp only
  split
  · rename_i h'
    rw [hnone] at h'
    cases h'
  · rfl

def Spells (w : String) (l : Lexeme) : Prop := l.shape = .word ∧ Text.spells w l.text = true

theorem dropWords?_some {words : List String} {ls rest : List Lexeme}
    (h : dropWords? words ls = some rest) :
    ∃ taken, ls = taken ++ rest ∧ List.Forall₂ Spells words taken := by
  fun_induction dropWords? words ls with
  | case1 ls =>
    cases h
    exact ⟨[], rfl, .nil⟩
  | case2 => cases h
  | case3 w ws l ls hl ih =>
    obtain ⟨taken, rfl, htaken⟩ := ih h
    simp only [Bool.and_eq_true, decide_eq_true_eq] at hl
    exact ⟨l :: taken, rfl, .cons hl htaken⟩
  | case4 => cases h

theorem compoundType?_some {ls rest : List Lexeme} {name : String}
    (h : compoundType? ls = some (name, rest)) :
    ∃ words ∈ Vocabulary.compoundTypes, name = " ".intercalate words ∧ ∃ taken,
      ls = taken ++ rest ∧ List.Forall₂ Spells words taken := by
  obtain ⟨words, hmem, hfound⟩ := List.exists_of_findSome?_eq_some h
  obtain ⟨rest', hdrop, he⟩ := Option.map_eq_some_iff.mp hfound
  obtain ⟨rfl, rfl⟩ := Prod.mk.inj he
  exact ⟨words, hmem, rfl, dropWords?_some hdrop⟩

/-- Induction along the items: the words of a compound type make one item, and every other lexeme makes
one of its own. -/
theorem classify_induction {motive : List Lexeme → Prop} (nil : motive [])
    (compound : ∀ (l : Lexeme) (ls : List Lexeme) (words : List String) (taken rest : List Lexeme),
      l.shape = .word → compoundType? (l :: ls) = some (" ".intercalate words, rest) →
      words ∈ Vocabulary.compoundTypes → l :: ls = taken ++ rest → List.Forall₂ Spells words taken →
      motive rest → motive (l :: ls))
    (lone : ∀ (l : Lexeme) (ls : List Lexeme), (l.shape = .word → compoundType? (l :: ls) = none) →
      motive ls → motive (l :: ls))
    (ls : List Lexeme) : motive ls := by
  induction ls using classify.induct with
  | case1 => exact nil
  | case2 l ls name rest hfound ih =>
    by_cases hword : l.shape = .word
    · rw [dif_pos hword] at hfound
      obtain ⟨words, hwords, rfl, taken, htaken, hspells⟩ := compoundType?_some hfound
      exact compound l ls words taken rest hword hfound hwords htaken hspells ih
    · rw [dif_neg hword] at hfound
      cases hfound
  | case3 l ls hnone ih =>
    refine lone l ls (fun hword => ?_) ih
    rwa [dif_pos hword] at hnone

end Classify

/-- A word that spells an upper-case word of the vocabulary has its letters. -/
theorem upper_of_spells {word text : String} (hword : isVocabulary word = true)
    (h : Text.spells word text = true) : Text.upper text = word := by
  have hlist : text.toList.map Text.asciiUpper = word.toList := by simpa [Text.spells] using h
  have hascii : Text.isAscii text.toList = true := by
    have hall := isAscii_of_isVocabulary hword
    rw [Text.isAscii, List.all_eq_true] at hall ⊢
    intro c hc
    have hupper := hall (Text.asciiUpper c) (by rw [← hlist]; exact List.mem_map_of_mem hc)
    simp only [decide_eq_true_eq] at hupper ⊢
    unfold Text.asciiUpper at hupper
    split at hupper
    · rename_i hrange
      have hz : c.toNat ≤ 'z'.toNat := Char.le_def.mp hrange.2
      have : 'z'.toNat = 122 := rfl
      omega
    · exact hupper
  apply String.toList_injective
  rw [Text.toList_upper hascii, hlist]

end Token

namespace Scrap
open Lexeme

/-- The scrap is the text of the token, or its last or first word. -/
structure Prints (s : Scrap) (t : Token) : Prop where
  shape : s.shape = t.kind.shape
  verbatim : t.kind = .ident ∨ s.shape ≠ .word → s.text = t.text.toList
  plain : s.shape = .word → t.kind ≠ .ident → isPlainWord s.text = true

/-- The scrap is printed for the lexeme: it is the same, or a word of the vocabulary with the same
letters. -/
structure Respelt (l : Lexeme) (s : Scrap) : Prop where
  shape : s.shape = l.shape
  text : s.text = l.text.toList ∨ (l.shape = .word ∧ isVocabulary (String.ofList s.text) = true ∧
    Text.upper (String.ofList s.text) = Text.upper l.text)

section Printing
variable {ops : List (List Char)}

theorem text_of_isCast (tame : Operator.Tame ops) {s : Scrap} {t : Token} (hprints : s.Prints t)
    (hstands : Stands ops s.shape s.text []) (hcast : t.isCast = true) :
    s.shape = .operator ∧ s.text = [':', ':'] := by
  simp only [Token.isCast, Bool.and_eq_true, decide_eq_true_eq, List.isPrefixOf_iff_prefix] at hcast
  obtain ⟨hkind, more, hmore⟩ := hcast
  have hshape : s.shape = .operator := by
    rw [hprints.shape, hkind]
    rfl
  refine ⟨hshape, ?_⟩
  have htext : s.text = t.text.toList := hprints.verbatim (Or.inr (by simp [hshape]))
  rw [hshape] at hstands
  apply tame.colon _ hstands.mem_operators
  rw [htext, ← hmore]
  simp

/-- A scrap that ends with a colon before a cast is a mark or a cast itself. -/
theorem getLast_of_prints (tame : Operator.Tame ops) {a : Scrap} {p q : Piece}
    (hprints : a.Prints p.token) (hstands : Stands ops a.shape a.text [])
    (hclosed : a.shape = .quoted → isClosed a.text = true) (hcast : q.token.isCast = true)
    (hstray : ¬Piece.Stray p q) :
    (∃ kind, a.shape = .mark kind) ∨ (a.shape = .operator ∧ a.text = [':', ':']) ∨
      a.text.getLast? ≠ some ':' := by
  by_cases hlast : a.text.getLast? = some ':'
  · cases hshape : a.shape with
    | mark kind => exact Or.inl ⟨kind, rfl⟩
    | operator =>
      right
      left
      rw [hshape] at hstands
      have hmem := hstands.mem_operators
      refine ⟨rfl, tame.colon _ hmem ?_⟩
      obtain ⟨c, word, htext⟩ := List.exists_cons_of_ne_nil hstands.ne_nil
      rw [htext] at hlast hmem ⊢
      cases word with
      | nil =>
        obtain rfl : c = ':' := by simpa using hlast
        exact absurd hmem tame.lone
      | cons e es =>
        rw [List.getLast?_cons_cons] at hlast
        exact List.mem_of_getLast? hlast
    | quoted =>
      rw [hshape] at hstands
      obtain ⟨q, hq, hquote⟩ := hstands.getLast_quoted (hclosed hshape)
      rw [hlast] at hq
      cases hq
      cases hquote
    | word =>
      right
      right
      by_cases hident : p.token.kind = .ident
      · have htext := hprints.verbatim (Or.inl hident)
        exact absurd ⟨hident, by rw [← htext]; exact hlast, hcast⟩ hstray
      · have hplain := hprints.plain hshape hident
        simp only [isPlainWord, Bool.and_eq_true, List.all_eq_true] at hplain
        have hcolon := hplain.2 ':' (List.mem_of_getLast? hlast)
        cases hcolon
  · exact Or.inr (Or.inr hlast)

section Touching
variable {a b : Scrap} {t u : Token}

theorem touches_of_holds (tame : Operator.Tame ops) (ha : a.Prints t)
    (hstands : Stands ops a.shape a.text []) (hholds : t.holds = true) : a.Touches b := by
  unfold Token.holds at hholds
  rw [Bool.or_eq_true] at hholds
  rcases hholds with hopen | hcast
  · refine Or.inl ⟨t.kind, ?_⟩
    rw [ha.shape]
    revert hopen
    cases t.kind <;> simp [TokenKind.isOpening, TokenKind.shape, TokenKind.isPunctuation]
  · exact Or.inr (Or.inl (text_of_isCast tame ha hstands hcast))

/-- A token that hugs what stands before it is a mark, unless it is a cast. -/
theorem touches_of_hugs (hb : b.Prints u) (hhugs : u.hugs = true) (hcast : u.isCast = false) :
    a.Touches b := by
  refine Or.inr (Or.inr (Or.inl ⟨u.kind, ?_⟩))
  rw [hb.shape]
  revert hhugs
  simp only [Token.hugs, Draft.hugsLeft, hcast]
  cases u.kind <;> simp [TokenKind.shape, TokenKind.isPunctuation]

/-- The letter of a prefix is no operator, so it is printed as a word. -/
theorem plain_of_letter (tame : Operator.Tame ops) (ha : a.Prints t)
    (hstands : Stands ops a.shape a.text []) (hpart : t.isPrefixPart = true)
    (hletter : t.text = "U" ∨ t.text = "u") : a.shape = .word ∧ isPlainWord a.text = true := by
  have htext : t.text.toList = ['U'] ∨ t.text.toList = ['u'] := by
    rcases hletter with h | h <;> rw [h] <;> decide
  simp only [Token.isPrefixPart, Bool.or_eq_true, decide_eq_true_eq] at hpart
  rcases hpart with hident | hop
  · refine ⟨by rw [ha.shape, hident]; rfl, ?_⟩
    rw [ha.verbatim (Or.inl hident)]
    rcases htext with h | h <;> rw [h] <;> decide
  · exfalso
    have hshape : a.shape = .operator := by rw [ha.shape, hop]; rfl
    rw [hshape] at hstands
    have hbare := tame.bare _ hstands.mem_operators
    rw [ha.verbatim (Or.inr (by simp [hshape]))] at hbare
    rcases htext with h | h <;> simp [h, Text.isWordChar] at hbare

/-- The ampersand of a prefix is no word, so it is printed as an operator. -/
theorem operator_of_ampersand (tame : Operator.Tame ops) (hb : b.Prints u)
    (hstands : Stands ops b.shape b.text []) (hpart : u.isPrefixPart = true) (hamp : u.text = "&") :
    b.shape = .operator := by
  simp only [Token.isPrefixPart, Bool.or_eq_true, decide_eq_true_eq] at hpart
  rcases hpart with hident | hop
  · exfalso
    have hshape : b.shape = .word := by rw [hb.shape, hident]; rfl
    rw [hshape, hb.verbatim (Or.inl hident), hamp] at hstands
    exact hstands.not_mem_operators tame.ampersand
  · rw [hb.shape, hop]
    rfl

theorem touches_of_glued (tame : Operator.Tame ops) {p q : Piece} (ha : a.Prints p.token)
    (hb : b.Prints q.token) (hastands : Stands ops a.shape a.text [])
    (hbstands : Stands ops b.shape b.text []) (hglued : Piece.Glued p q) : a.Touches b := by
  obtain ⟨hp, hq | ⟨hq, hletter, hamp⟩⟩ := hglued
  · refine Or.inr (Or.inr (Or.inr (Or.inr (Or.inl ⟨?_, ?_⟩))))
    · simp only [Token.isPrefixPart, Bool.or_eq_true, decide_eq_true_eq] at hp
      rw [ha.shape]
      rcases hp with hp | hp <;> rw [hp] <;> simp [TokenKind.shape, TokenKind.isPunctuation]
    · rw [hb.shape, hq]
      rfl
  · obtain ⟨hword, hplain⟩ := plain_of_letter tame ha hastands hp hletter
    have hop := operator_of_ampersand tame hb hbstands hq hamp
    exact Or.inr (Or.inr (Or.inr (Or.inr (Or.inr ⟨hword, hplain, hop⟩))))

/-- Pieces that are bound to one another print scraps that may touch. -/
theorem touches_of_bound (tame : Operator.Tame ops) {p q : Piece} (ha : a.Prints p.token)
    (hb : b.Prints q.token) (hastands : Stands ops a.shape a.text [])
    (hbstands : Stands ops b.shape b.text [])
    (hclosed : a.shape = .quoted → isClosed a.text = true)
    (hbound : p.token.holds = true ∨ q.token.hugs = true ∨ Piece.Glued p q)
    (hstray : ¬Piece.Stray p q) : a.Touches b := by
  rcases hbound with hholds | hhugs | hglued
  · exact touches_of_holds tame ha hastands hholds
  · cases hcast : q.token.isCast with
    | false => exact touches_of_hugs hb hhugs hcast
    | true =>
      obtain ⟨hshape, htext⟩ := text_of_isCast tame hb hbstands hcast
      rcases getLast_of_prints tame ha hastands hclosed hcast hstray with h | h | h
      · exact Or.inl h
      · exact Or.inr (Or.inl h)
      · exact Or.inr (Or.inr (Or.inr (Or.inl ⟨hshape, htext, h⟩)))
  · exact touches_of_glued tame ha hb hastands hbstands hglued

end Touching

end Printing

end Scrap

/-- The scraps are printed for the lexemes, and make up the text of the pieces. -/
structure Respelled (o : Options) (d : Dialect) (ls : List Lexeme) (parts : List Piece)
    (scraps : List Scrap) : Prop where
  text : Scrap.flat scraps = Piece.flat o parts
  respelt : List.Forall₂ Scrap.Respelt ls scraps
  alone : ∀ s ∈ scraps, Lexeme.Stands (d.operators.map String.toList) s.shape s.text []
  blank : ∀ s ∈ scraps, Scrap.isBlank s.gap
  meets : scraps.IsChain Scrap.Meets
  begins : ∀ b ∈ scraps.head?, ∃ q ∈ parts.head?, b.gap = q.gap ∧ b.Prints q.token
  last : ∀ a ∈ scraps.getLast?, ∃ p ∈ parts.getLast?, a.Prints p.token
  classified : ∀ afterNewline spaced,
    List.Forall₂ Token.Alike ls (Scrap.lexemes afterNewline spaced scraps) →
    Token.classify d (Scrap.lexemes afterNewline spaced scraps) =
      Piece.items afterNewline spaced parts

namespace Respelled
open Lexeme Token Scrap
variable {o : Options} {d : Dialect}

/-- The scrap that is printed for the token of a lexeme. -/
def tokenScrap (o : Options) (gap : List Char) (l : Lexeme) (t : Token) : Scrap :=
  ⟨gap, l.shape, (t.spelling o).toList⟩

theorem prints_verbatim {l : Lexeme} {t : Token} (gap : List Char) (htext : t.text = l.text)
    (hkind : t.kind.isVerbatim = true ∨ t.kind = .operator) (hshape : t.kind.shape = l.shape)
    (hword : l.shape = .word → t.kind = .ident) :
    (tokenScrap o gap l t).text = l.text.toList ∧ (tokenScrap o gap l t).Prints t := by
  have hspelling : t.spelling o = l.text := by
    rcases hkind with h | h <;> simp [spelling, h, htext]
  have hscrap : (tokenScrap o gap l t).text = l.text.toList := by
    rw [tokenScrap, hspelling]
  refine ⟨hscrap, hshape.symm, fun _ => ?_, fun h hident => absurd (hword h) hident⟩
  rw [hscrap, htext]

theorem prints_vocabulary (tame : d.Tame) {l : Lexeme} {ls : List Lexeme} (gap : List Char)
    (hshape : l.shape = .word) (hident : (ofLexeme d l ls).kind ≠ .ident) :
    let s := tokenScrap o gap l (ofLexeme d l ls)
    s.Prints (ofLexeme d l ls) ∧ isPlainWord s.text = true ∧
      isVocabulary (String.ofList s.text) = true ∧
      Text.upper (String.ofList s.text) = Text.upper l.text := by
  intro s
  have htoken : ofLexeme d l ls = ofWord d l.text (startsWithParen ls) := by
    simp only [ofLexeme, hshape]
  have hspelling := @ofWord_spelling d tame o l.text (startsWithParen ls)
  rw [← htoken] at hspelling
  obtain ⟨hvocabulary, hupper⟩ := hspelling hident
  have hkind : (ofLexeme d l ls).kind.shape = .word := by
    rw [htoken]
    rcases ofWord_cases tame l.text (startsWithParen ls) with he | ⟨k, he, -⟩ | ⟨f, he, -⟩ |
      ⟨kind, he, -⟩
    · rw [he]
      rfl
    · rw [he]
      rfl
    · rw [he]
      rfl
    · rw [he]
      cases kind <;> rfl
  have htext : String.ofList s.text = (ofLexeme d l ls).spelling o := String.ofList_toList
  rw [← htext] at hvocabulary hupper
  have hplain : isPlainWord s.text = true := by
    simp only [isVocabulary, Bool.and_eq_true, String.toList_ofList] at hvocabulary
    exact hvocabulary.1
  refine ⟨⟨hshape.trans hkind.symm, ?_, fun _ _ => hplain⟩, hplain, hvocabulary, hupper⟩
  rintro (h | h)
  · exact absurd h hident
  · exact absurd hshape h

/-- The lexeme of a token that is no compound type, as it is printed. -/
theorem ofLexeme_prints (tame : d.Tame) {l : Lexeme} (ls : List Lexeme) (gap : List Char)
    (hl : Stands (d.operators.map String.toList) l.shape l.text.toList []) :
    let s := tokenScrap o gap l (ofLexeme d l ls)
    s.Prints (ofLexeme d l ls) ∧ Respelt l s ∧
      Stands (d.operators.map String.toList) s.shape s.text [] := by
  intro s
  have verbatim : ∀ kind : TokenKind, ofLexeme d l ls = ⟨kind, l.text⟩ →
      kind.isVerbatim = true ∨ kind = .operator → kind.shape = l.shape →
      (l.shape = .word → kind = .ident) →
      s.Prints (ofLexeme d l ls) ∧ Respelt l s ∧
        Stands (d.operators.map String.toList) s.shape s.text [] := by
    intro kind htoken hkind hshape hword
    have h := @prints_verbatim o l ⟨kind, l.text⟩ gap rfl hkind hshape hword
    rw [← htoken] at h
    exact ⟨h.2, ⟨rfl, Or.inl h.1⟩, by rw [h.1]; exact hl⟩
  cases hshape : l.shape with
  | quoted =>
    exact verbatim .string (by simp only [ofLexeme, hshape]) (Or.inl rfl) hshape.symm
      (by simp [hshape])
  | operator =>
    exact verbatim .operator (by simp only [ofLexeme, hshape]) (Or.inr rfl) hshape.symm
      (by simp [hshape])
  | mark kind =>
    rw [hshape] at hl
    obtain ⟨hmark, hverbatim⟩ := TokenKind.shape_mark hl.isPunctuation.1
    rw [← hshape] at hl
    exact verbatim kind (by simp only [ofLexeme, hshape]) (Or.inl hverbatim)
      (hmark.trans hshape.symm) (by simp [hshape])
  | word =>
    by_cases hident : (ofLexeme d l ls).kind = .ident
    · refine verbatim .ident ?_ (Or.inl rfl) hshape.symm (fun _ => rfl)
      simp only [ofLexeme, hshape] at hident ⊢
      exact ofWord_ident hident
    · obtain ⟨hprints, hplain, hvocabulary, hupper⟩ := prints_vocabulary (o := o) tame gap hshape hident
      refine ⟨hprints, ⟨rfl, Or.inr ⟨hshape, hvocabulary, hupper⟩⟩, ?_⟩
      rw [show s.shape = .word from hshape]
      exact Stands.plain tame.operators hplain (Or.inl rfl)

/-- The token of a lexeme depends on the letters of a word of the vocabulary, and else on the text. -/
theorem ofLexeme_congr {l l' : Lexeme} {ls ls' : List Lexeme} (hshape : l'.shape = l.shape)
    (hparen : startsWithParen ls' = startsWithParen ls)
    (htext : l'.text = l.text ∨ l.shape = .word ∧ Text.upper l'.text = Text.upper l.text ∧
      (ofLexeme d l ls).kind ≠ .ident) : ofLexeme d l' ls' = ofLexeme d l ls := by
  unfold ofLexeme at htext ⊢
  rw [hshape, hparen]
  rcases htext with htext | ⟨hword, hupper, hkind⟩
  · rw [htext]
  · rw [hword] at hkind ⊢
    exact ofWord_congr hkind hupper

theorem ofLexeme_respelt {l l' : Lexeme} {ls ls' : List Lexeme} {gap : List Char}
    (h : Respelt l (tokenScrap o gap l (ofLexeme d l ls))) (hshape : l'.shape = l.shape)
    (htext : l'.text = (ofLexeme d l ls).spelling o)
    (hparen : startsWithParen ls' = startsWithParen ls) : ofLexeme d l' ls' = ofLexeme d l ls := by
  refine ofLexeme_congr hshape hparen ?_
  rw [htext]
  rcases h.text with hsame | ⟨hword, -, hupper⟩
  · exact Or.inl (String.toList_injective hsame)
  · by_cases hident : (ofLexeme d l ls).kind = .ident
    · left
      have hself : ofLexeme d l ls = ⟨.ident, l.text⟩ := by
        unfold ofLexeme at hident ⊢
        rw [hword] at hident ⊢
        exact ofWord_ident hident
      rw [hself, spelling]
      simp [TokenKind.isVerbatim]
    · rw [tokenScrap, String.ofList_toList] at hupper
      exact Or.inr ⟨hword, hupper, hident⟩

theorem lexemes_shapes (afterNewline spaced : Bool) {ls : List Lexeme} {scraps : List Scrap}
    (h : List.Forall₂ Respelt ls scraps) :
    startsWithParen (lexemes afterNewline spaced scraps) = startsWithParen ls := by
  cases h with
  | nil => rfl
  | cons hl _ => simp [lexemes, startsWithParen, hl.shape]

theorem parts_eq_nil {ls : List Lexeme} {parts : List Piece} (h : Respelled o d ls parts []) :
    parts = [] := by
  have hitems := h.classified false false (by simpa [lexemes] using h.respelt)
  rw [lexemes, classify.eq_def] at hitems
  cases parts with
  | nil => rfl
  | cons q qs => simp [Piece.items] at hitems

/-- What is printed for a piece meets what is printed for the pieces behind it. -/
theorem meets_head (tame : d.Tame) {ls : List Lexeme} {p : Piece} {parts : List Piece} {a : Scrap}
    {scraps : List Scrap} (h : Respelled o d ls parts scraps) (hprints : a.Prints p.token)
    (hstands : Stands (d.operators.map String.toList) a.shape a.text [])
    (hclosed : scraps ≠ [] → a.shape = .quoted → isClosed a.text = true)
    (hbound : ∀ q ∈ parts.head?, Piece.Bound p q) (hstray : ∀ q ∈ parts.head?, ¬Piece.Stray p q) :
    ∀ b ∈ scraps.head?, Meets a b := by
  intro b hb
  have hmem : b ∈ scraps := List.mem_of_head? hb
  have hclosed := hclosed (List.ne_nil_of_mem hmem)
  refine ⟨hclosed, fun hgap => ?_⟩
  obtain ⟨q, hq, hgap', hbprints⟩ := h.begins b hb
  exact touches_of_bound tame.operators hprints hbprints hstands (h.alone b hmem) hclosed
    (hbound q hq (hgap' ▸ hgap)) (hstray q hq)

theorem single (tame : d.Tame) {l : Lexeme} {ls : List Lexeme} {p : Piece} {parts : List Piece}
    {scraps : List Scrap} (hl : Stands (d.operators.map String.toList) l.shape l.text.toList [])
    (hclosed : ∀ l' ∈ ls.head?, l.shape = .quoted → isClosed l.text.toList = true)
    (hnone : l.shape = .word → compoundType? (l :: ls) = none) (hp : p.token = ofLexeme d l ls)
    (hblank : isBlank p.gap) (hbound : ∀ q ∈ parts.head?, Piece.Bound p q)
    (hstray : ∀ q ∈ parts.head?, ¬Piece.Stray p q) (h : Respelled o d ls parts scraps) :
    Respelled o d (l :: ls) (p :: parts) (tokenScrap o p.gap l p.token :: scraps) := by
  obtain ⟨hprints, hrespelt, hstands⟩ := ofLexeme_prints (o := o) tame ls p.gap hl
  have hclosed' : scraps ≠ [] → l.shape = .quoted →
      isClosed (tokenScrap o p.gap l (ofLexeme d l ls)).text = true := by
    intro hne hquoted
    rcases hrespelt.text with htext | ⟨hword, -⟩
    · rw [htext]
      have hlength := h.respelt.length_eq
      obtain ⟨l', hl'⟩ : ∃ l', l' ∈ ls.head? := by
        cases ls with
        | nil => exact absurd (List.length_eq_zero_iff.mp hlength.symm) hne
        | cons l' ls => exact ⟨l', rfl⟩
      exact hclosed l' hl' hquoted
    · rw [hquoted] at hword
      cases hword
  rw [← hp] at hprints hstands hclosed'
  constructor
  case text => simp [tokenScrap, h.text]
  case respelt =>
    rw [← hp] at hrespelt
    exact .cons hrespelt h.respelt
  case alone => exact List.forall_mem_cons.mpr ⟨hstands, h.alone⟩
  case blank => exact List.forall_mem_cons.mpr ⟨hblank, h.blank⟩
  case meets =>
    exact List.isChain_cons.mpr
      ⟨h.meets_head tame hprints hstands hclosed' hbound hstray, h.meets⟩
  case begins =>
    intro b hb
    obtain rfl : _ = b := by simpa using hb
    exact ⟨p, rfl, rfl, hprints⟩
  case last =>
    intro a ha
    rcases Unjoined.getLast_cons ha with ⟨rfl, rfl⟩ | ha
    · rw [h.parts_eq_nil]
      exact ⟨p, rfl, hprints⟩
    · obtain ⟨p', hp', hprints'⟩ := h.last a ha
      exact ⟨p', List.mem_getLast?_cons hp', hprints'⟩
  case classified =>
    intro afterNewline spaced halike
    rw [lexemes] at halike ⊢
    generalize hl' : (⟨(tokenScrap o p.gap l p.token).shape,
      String.ofList (tokenScrap o p.gap l p.token).text,
      afterNewline || (tokenScrap o p.gap l p.token).gap.contains '\n',
      spaced || !(tokenScrap o p.gap l p.token).gap.isEmpty⟩ : Lexeme) = l' at halike ⊢
    have hshape : l'.shape = l.shape := by rw [← hl']; rfl
    have htext : l'.text = (ofLexeme d l ls).spelling o := by
      rw [← hl', ← hp]
      exact String.ofList_toList
    have hnone' : l'.shape = .word → compoundType? (l' :: lexemes false false scraps) = none := by
      intro hword
      rw [compoundType?_congr halike, hnone (hshape ▸ hword)]
      rfl
    have htoken := ofLexeme_respelt hrespelt hshape htext (lexemes_shapes false false h.respelt)
    obtain ⟨-, hmore⟩ := List.forall₂_cons.mp halike
    rw [classify_none hnone', htoken, h.classified false false hmore, Piece.items, ← hp, ← hl']
    rfl

/-- The scrap of a word of a compound type. -/
def wordScrap (o : Options) (gap : List Char) (w : String) : Scrap := ⟨gap, .word, (cased o w).toList⟩

theorem wordScrap_plain (gap : List Char) {w : String} (hw : isVocabulary w = true) :
    isPlainWord (wordScrap o gap w).text = true := by
  have h := (cased_vocabulary o hw).1
  simp only [isVocabulary, Bool.and_eq_true] at h
  exact h.1

theorem wordScrap_prints (gap : List Char) (name : String) {w : String} (hw : isVocabulary w = true) :
    (wordScrap o gap w).Prints ⟨.type, name⟩ := by
  refine ⟨rfl, ?_, fun _ _ => wordScrap_plain gap hw⟩
  rintro (hk | hk)
  · cases hk
  · exact absurd rfl hk

theorem wordScrap_stands (tame : d.Tame) (gap : List Char) {w : String} (hw : isVocabulary w = true) :
    Stands (d.operators.map String.toList) (wordScrap o gap w).shape (wordScrap o gap w).text [] :=
  Stands.plain tame.operators (wordScrap_plain gap hw) (Or.inl rfl)

/-- The words of a compound type stand apart, and the last of them meets what follows the type. -/
theorem meets_words {scraps : List Scrap} (gap : List Char) (w : String) (ws : List String)
    (hmeets : scraps.IsChain Meets) (hlast : ∀ gap' w', w' ∈ w :: ws →
      ∀ b ∈ scraps.head?, Meets (wordScrap o gap' w') b) :
    (wordScrap o gap w :: (ws.map (wordScrap o [' ']) ++ scraps)).IsChain Meets := by
  induction ws generalizing gap w with
  | nil => exact List.isChain_cons.mpr ⟨hlast gap w (by simp), hmeets⟩
  | cons v vs ih =>
    rw [List.map_cons, List.cons_append, List.isChain_cons_cons]
    refine ⟨⟨by simp [wordScrap], by simp [wordScrap]⟩, ?_⟩
    exact ih [' '] v fun gap' w' hw' => hlast gap' w' (List.mem_cons_of_mem w hw')

theorem lexemes_drop (afterNewline spaced : Bool) (s : Scrap) (block scraps : List Scrap) :
    (lexemes afterNewline spaced (s :: (block ++ scraps))).drop (block.length + 1) =
      lexemes false false scraps := by
  rw [lexemes, List.drop_succ_cons]
  induction block with
  | nil => rfl
  | cons r block ih => exact ih

theorem respelt_word {w : String} {l : Lexeme} (gap : List Char) (hl : Spells w l)
    (hw : isVocabulary w = true ∧ Text.upper w = w) : Respelt l (wordScrap o gap w) := by
  refine ⟨hl.1.symm, Or.inr ⟨hl.1, ?_⟩⟩
  dsimp only [wordScrap]
  rw [String.ofList_toList, upper_of_spells hw.1 hl.2]
  obtain ⟨hcased, hcasedUpper⟩ := cased_vocabulary o hw.1
  exact ⟨hcased, hcasedUpper.trans hw.2⟩

theorem respelt_words {words : List String} {taken : List Lexeme} (gap : List Char)
    (hspells : List.Forall₂ Spells words taken)
    (hvocabulary : ∀ w ∈ words, isVocabulary w = true ∧ Text.upper w = w) :
    List.Forall₂ Respelt taken (words.map (wordScrap o gap)) := by
  induction hspells with
  | nil => exact .nil
  | @cons w l ws ls hl _ ih =>
    obtain ⟨hw, hws⟩ := List.forall_mem_cons.mp hvocabulary
    exact .cons (respelt_word gap hl hw) (ih hws)

/-- The words of a compound type, as it is printed. -/
def wordScraps (o : Options) (gap : List Char) (first : String) (more : List String) : List Scrap :=
  wordScrap o gap first :: more.map (wordScrap o [' '])

theorem forall_wordScraps {o : Options} {P : Scrap → Prop} {gap : List Char} {first : String}
    {more : List String} :
    (∀ s ∈ wordScraps o gap first more, P s) ↔
      P (wordScrap o gap first) ∧ ∀ w ∈ more, P (wordScrap o [' '] w) := by
  rw [wordScraps, List.forall_mem_cons, List.forall_mem_map]

theorem compoundType?_words {ls rest taken : List Lexeme} {name first : String} {more : List String}
    {gap : List Char} {scraps : List Scrap} {afterNewline spaced : Bool}
    (hfound : compoundType? ls = some (name, rest)) (htaken : ls = taken ++ rest)
    (hlength : taken.length = more.length + 1)
    (h : List.Forall₂ Alike ls (lexemes afterNewline spaced (wordScraps o gap first more ++ scraps))) :
    compoundType? (lexemes afterNewline spaced (wordScraps o gap first more ++ scraps)) =
        some (name, lexemes false false scraps) ∧
      List.Forall₂ Alike rest (lexemes false false scraps) := by
  have hdrop : (lexemes afterNewline spaced (wordScraps o gap first more ++ scraps)).drop taken.length =
      lexemes false false scraps := by
    rw [hlength, ← more.length_map (wordScrap o [' '])]
    exact lexemes_drop afterNewline spaced _ _ scraps
  constructor
  · have htake : ls.length - rest.length = taken.length := by
      rw [htaken, List.length_append]
      omega
    rw [compoundType?_congr h, hfound, Option.map_some, htake, hdrop]
  · have hafter := List.forall₂_drop taken.length h
    rwa [htaken, List.drop_left, hdrop] at hafter

theorem compound (tame : d.Tame) {l : Lexeme} {ls rest : List Lexeme} {name : String} {p : Piece}
    {parts : List Piece} {scraps : List Scrap}
    (hfound : compoundType? (l :: ls) = some (name, rest)) (hp : p.token = ⟨.type, name⟩)
    (hblank : isBlank p.gap) (hbound : ∀ q ∈ parts.head?, Piece.Bound p q)
    (hstray : ∀ q ∈ parts.head?, ¬Piece.Stray p q) (h : Respelled o d rest parts scraps) :
    ∃ block, Respelled o d (l :: ls) (p :: parts) (block ++ scraps) := by
  obtain ⟨words, hwords, hname, taken, htaken, hspells⟩ := compoundType?_some hfound
  obtain ⟨first, more, rfl, hspelling, hvocabulary⟩ := compound_spelling o hwords
  obtain ⟨hfirst, hmore⟩ := List.forall_mem_cons.mp hvocabulary
  have hprints : ∀ gap, ∀ w ∈ first :: more, (wordScrap o gap w).Prints p.token := fun gap w hw =>
    hp ▸ wordScrap_prints gap name (hvocabulary w hw).1
  refine ⟨wordScraps o p.gap first more, ?_⟩
  constructor
  case text =>
    rw [wordScraps, List.cons_append, Scrap.flat_cons, Piece.flat_cons, hp, hname, hspelling, ← h.text]
    simp [wordScrap, Scrap.flat, List.flatMap_map, List.append_assoc]
  case respelt =>
    rw [htaken]
    apply List.rel_append _ h.respelt
    cases hspells with
    | cons hl hls => exact .cons (respelt_word p.gap hl hfirst) (respelt_words [' '] hls hmore)
  case alone =>
    rw [List.forall_mem_append, forall_wordScraps]
    exact ⟨⟨wordScrap_stands tame p.gap hfirst.1,
      fun w hw => wordScrap_stands tame [' '] (hmore w hw).1⟩, h.alone⟩
  case blank =>
    rw [List.forall_mem_append, forall_wordScraps]
    exact ⟨⟨hblank, fun w _ => isBlank_of_spaces (by simp [wordScrap])⟩, h.blank⟩
  case meets =>
    refine meets_words p.gap first more h.meets fun gap w hw => ?_
    exact h.meets_head tame (hprints gap w hw) (wordScrap_stands tame gap (hvocabulary w hw).1)
      (by simp [wordScrap]) hbound hstray
  case begins =>
    intro b hb
    obtain rfl : wordScrap o p.gap first = b := by simpa [wordScraps] using hb
    exact ⟨p, rfl, rfl, hprints p.gap first List.mem_cons_self⟩
  case last =>
    intro a ha
    cases hlast : scraps.getLast? with
    | none =>
      rw [List.getLast?_eq_none_iff] at hlast
      rw [hlast] at h ha
      rw [h.parts_eq_nil]
      rw [List.append_nil] at ha
      have hall : ∀ s ∈ wordScraps o p.gap first more, s.Prints p.token := by
        rw [forall_wordScraps]
        exact ⟨hprints p.gap first List.mem_cons_self,
          fun w hw => hprints [' '] w (List.mem_cons_of_mem first hw)⟩
      exact ⟨p, rfl, hall a (List.mem_of_getLast? ha)⟩
    | some b =>
      rw [List.getLast?_append, hlast] at ha
      obtain rfl : b = a := Option.some.inj ha
      obtain ⟨p', hp', hprints'⟩ := h.last b hlast
      exact ⟨p', List.mem_getLast?_cons hp', hprints'⟩
  case classified =>
    intro afterNewline spaced halike
    obtain ⟨hwords, hrest⟩ := compoundType?_words hfound htaken hspells.length_eq.symm halike
    rw [wordScraps, List.cons_append, lexemes] at hwords ⊢
    rw [classify_some rfl hwords, h.classified false false hrest, Piece.items, hp]
    rfl

theorem ofLexeme_raw (tame : d.Tame) {l : Lexeme} (ls : List Lexeme)
    (hl : Stands (d.operators.map String.toList) l.shape l.text.toList []) :
    (ofLexeme d l ls).Raw := by
  have hne : l.text ≠ "" := fun h => hl.ne_nil (String.toList_eq_nil_iff.mpr h)
  have hvocabulary : ∀ w, isVocabulary w = true → w ≠ "" := by
    rintro w hw rfl
    cases hw
  unfold ofLexeme
  cases hshape : l.shape with
  | quoted =>
    rw [hshape] at hl
    obtain ⟨c, cs, htext, hquote, -⟩ := stands_head hl
    exact ⟨hne, by simp, fun _ => by simp [htext, hquote rfl]⟩
  | operator => exact ⟨hne, by simp, by simp⟩
  | mark kind =>
    rw [hshape] at hl
    have hkind := hl.isPunctuation.1
    refine ⟨hne, ?_, ?_⟩
    · constructor
      · rintro rfl
        cases hkind
      · rintro rfl
        cases hkind
    · rintro rfl
      cases hkind
  | word =>
    rcases ofWord_cases tame l.text (startsWithParen ls) with he | ⟨k, he, hvoc, -⟩ |
      ⟨f, he, hvoc, -⟩ | ⟨kind, he, hvoc, -⟩ <;> dsimp only <;> rw [he]
    · exact ⟨hne, by simp, by simp⟩
    · exact ⟨hvocabulary _ hvoc, by simp, by simp⟩
    · exact ⟨hvocabulary _ hvoc, by simp, by simp⟩
    · exact ⟨hvocabulary _ hvoc, by cases kind <;> simp [WordKind.tokenKind],
        by cases kind <;> simp [WordKind.tokenKind]⟩

theorem classify_raw (tame : d.Tame) {ls : List Lexeme}
    (hstands : ∀ l ∈ ls, Stands (d.operators.map String.toList) l.shape l.text.toList []) :
    ∀ s ∈ classify d ls, s.token.Raw := by
  have hnames : ∀ words ∈ Vocabulary.compoundTypes, " ".intercalate words ≠ "" := by decide +kernel
  induction ls using classify_induction with
  | nil => simp [classify]
  | compound l ls words taken rest hword hfound hwords htaken _ ih =>
    intro s hs
    rw [classify_some hword hfound] at hs
    rcases List.mem_cons.mp hs with rfl | hs
    · exact ⟨hnames words hwords, by simp, by simp⟩
    · exact ih (fun r hr => hstands r (by rw [htaken]; simp [hr])) s hs
  | lone l ls hnone ih =>
    intro s hs
    rw [classify_none hnone] at hs
    rcases List.mem_cons.mp hs with rfl | hs
    · exact ofLexeme_raw tame ls (hstands l List.mem_cons_self)
    · exact ih (fun r hr => hstands r (List.mem_cons_of_mem l hr)) s hs

/-- The items of a text that is scanned are printed as scraps. -/
theorem exists_scraps (tame : d.Tame) {ls : List Lexeme} {parts : List Piece}
    (hstands : ∀ l ∈ ls, Stands (d.operators.map String.toList) l.shape l.text.toList [])
    (hclosed : ls.IsChain fun l _ => l.shape = .quoted → isClosed l.text.toList = true)
    (hparts : parts.map Piece.token = (classify d ls).map Spaced.token)
    (hblank : ∀ p ∈ parts, isBlank p.gap) (hbound : parts.IsChain Piece.Bound)
    (hstray : parts.IsChain fun p q => ¬Piece.Stray p q) :
    ∃ scraps, Respelled o d ls parts scraps := by
  induction ls using classify_induction generalizing parts with
  | nil =>
    obtain rfl : parts = [] := by simpa [classify] using hparts
    refine ⟨[], rfl, .nil, by simp, by simp, .nil, by simp, by simp, ?_⟩
    intro afterNewline spaced _
    rw [lexemes, classify.eq_def, Piece.items]
  | compound l ls words taken rest hword hfound hwords htaken hspells ih =>
    rw [classify_some hword hfound] at hparts
    obtain ⟨p, parts, rfl, hp, hparts⟩ := List.map_eq_cons_iff.mp hparts
    rw [List.isChain_cons] at hbound hstray
    have hclosed' : rest.IsChain fun l _ => l.shape = .quoted → isClosed l.text.toList = true := by
      rw [htaken] at hclosed
      exact hclosed.right_of_append
    obtain ⟨scraps, h⟩ := ih (fun r hr => hstands r (by rw [htaken]; simp [hr])) hclosed' hparts
      (fun q hq => hblank q (List.mem_cons_of_mem p hq)) hbound.2 hstray.2
    obtain ⟨block, h'⟩ := h.compound tame hfound hp (hblank p List.mem_cons_self) hbound.1
      hstray.1
    exact ⟨_, h'⟩
  | lone l ls hnone ih =>
    rw [classify_none hnone] at hparts
    obtain ⟨p, parts, rfl, hp, hparts⟩ := List.map_eq_cons_iff.mp hparts
    rw [List.isChain_cons] at hbound hstray hclosed
    obtain ⟨scraps, h⟩ := ih (fun r hr => hstands r (List.mem_cons_of_mem l hr)) hclosed.2 hparts
      (fun q hq => hblank q (List.mem_cons_of_mem p hq)) hbound.2 hstray.2
    exact ⟨_, h.single tame (hstands l List.mem_cons_self) hclosed.1 hnone hp
      (hblank p List.mem_cons_self) hbound.1 hstray.1⟩

end Respelled
end SqlLayout
