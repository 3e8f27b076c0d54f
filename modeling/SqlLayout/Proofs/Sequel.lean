import SqlLayout.Proofs.Alignment
import SqlLayout.Proofs.Regapping
import SqlLayout.Proofs.Spelling

/-! What stands behind a semicolon. No lexeme, no compound type and no prefix of a literal goes on past
a mark, and the text behind it is cut and looked up as if it began there. Only AND and OR would be told
by the newline before them, and no statement begins with one of these. -/

namespace SqlLayout
set_option autoImplicit false

namespace Scrap
open Lexeme
variable {ops : List (List Char)}

/-- What the lexemes before a scrap are does not depend on the scraps behind it. -/
theorem lexemes_concat (afterNewline spaced : Bool) (scraps : List Scrap) (s : Scrap) :
    ∃ ks l, l.shape = s.shape ∧ ∀ more,
      lexemes afterNewline spaced (scraps ++ s :: more) = ks ++ l :: lexemes false false more := by
  induction scraps generalizing afterNewline spaced with
  | nil => exact ⟨[], _, rfl, fun _ => rfl⟩
  | cons a scraps ih =>
    obtain ⟨ks, l, hl, hmore⟩ := ih false false
    exact ⟨_ :: ks, l, hl, fun more => congrArg (_ :: ·) (hmore more)⟩

/-- Behind a mark the text may be changed altogether. -/
theorem Legible.behind_mark (tame : Operator.Tame ops) {scraps more : List Scrap} {s : Scrap}
    {kind : TokenKind} {tail tail' : List Char} (h : Legible ops (scraps ++ [s]) tail)
    (hs : s.shape = .mark kind) (hmore : Legible ops more tail') :
    Legible ops (scraps ++ s :: more) tail' := by
  obtain ⟨hblank, hmark, hsevers⟩ : isBlank s.gap ∧ (∀ rest, Stands ops s.shape s.text rest) ∧
      ∀ rest, Severs (s.text ++ rest) := by
    cases h.of_append with
    | cons hgap hstands _ =>
      obtain ⟨c, cs, htext, -, hc⟩ := stands_head hstands
      rw [hs] at hstands ⊢
      refine ⟨hgap, fun _ => (hstands.alone tame).mark, fun rest => ⟨c, cs ++ rest, ?_, ?_⟩⟩
      · rw [htext, List.cons_append]
      · exact (hc kind hs).symm
  induction scraps with
  | nil => exact .cons hblank (hmark _) hmore
  | cons a scraps ih =>
    cases h with
    | cons hgap hstands h =>
      refine .cons hgap ?_ (ih h)
      have hend : EndAlike (s.text ++ tail) (s.text ++ (flat more ++ tail')) :=
        Or.inr ⟨hsevers _, hsevers _⟩
      have hbefore : Stands ops a.shape a.text (flat scraps ++ s.gap ++ (s.text ++ tail)) := by
        simpa [flat_append] using hstands
      simpa [flat_append] using hbefore.end tame hend

/-- White space before scraps is part of the first of them, or of the white space behind. -/
theorem Legible.exists_after (gap : List Char) (hgap : isBlank gap) {scraps : List Scrap}
    {tail : List Char} (h : Legible ops scraps tail) :
    ∃ scraps' tail' afterNewline spaced, Legible ops scraps' tail' ∧
      flat scraps' ++ tail' = gap ++ (flat scraps ++ tail) ∧
      lexemes false false scraps' = lexemes afterNewline spaced scraps := by
  obtain ⟨p, hscan⟩ := @scanFrom_blank ops _ hgap 0 false false (flat scraps ++ tail)
  rw [h.scanFrom] at hscan
  obtain ⟨scraps', tail', h', htext, hlexemes⟩ := exists_legible hscan
  exact ⟨scraps', tail', _, _, h', htext.symm, hlexemes.symm⟩

end Scrap

namespace Token
variable {d : Dialect}

section Classify
variable {l : Lexeme} {kind : TokenKind}

theorem classify_mark (hl : l.shape = .mark kind) (ls : List Lexeme) :
    classify d (l :: ls) = ⟨⟨kind, l.text⟩, l.afterNewline, l.spaced⟩ :: classify d ls := by
  rw [classify_none]
  · simp [ofLexeme, hl]
  · intro hword
    rw [hl] at hword
    cases hword

/-- Compound types and calls end at a semicolon. -/
theorem classify_append_semicolon (hl : l.shape = .mark .semicolon) (ks ls : List Lexeme) :
    classify d (ks ++ l :: ls) = classify d ks ++ classify d (l :: ls) := by
  have hsingle : Single l := by
    intro words _ w _ hspells
    rw [hspells.1] at hl
    cases hl
  induction ks using classify_induction with
  | nil => simp [classify]
  | compound k ks words taken rest hword hfound _ _ _ ih =>
    have happend := compoundType?_append hsingle (k :: ks) ls
    rw [hfound, List.cons_append] at happend
    rw [List.cons_append, classify_some hword happend, classify_some hword hfound, ih,
      List.cons_append]
  | lone k ks hnone ih =>
    have hnone' : k.shape = .word → compoundType? (k :: (ks ++ l :: ls)) = none := by
      intro hword
      rw [← List.cons_append, compoundType?_append hsingle, hnone hword]
      rfl
    have hparen : startsWithParen (ks ++ l :: ls) = startsWithParen ks := by
      cases ks with
      | nil => simp [startsWithParen, hl]
      | cons k ks => rfl
    rw [List.cons_append, classify_none hnone', classify_none hnone, ih,
      Respelled.ofLexeme_congr rfl hparen (Or.inl rfl), List.cons_append]

/-- Of the white space before a lexeme only the item that it begins knows. -/
theorem classify_cons (l : Lexeme) (ls : List Lexeme) :
    ∃ token items, ∀ afterNewline spaced,
      classify d (⟨l.shape, l.text, afterNewline, spaced⟩ :: ls) =
        ⟨token, afterNewline, spaced⟩ :: items := by
  have hsame : ∀ afterNewline spaced,
      compoundType? (⟨l.shape, l.text, afterNewline, spaced⟩ :: ls) = compoundType? (l :: ls) := by
    intro afterNewline spaced
    have halike : List.Forall₂ Alike (l :: ls) (⟨l.shape, l.text, afterNewline, spaced⟩ :: ls) :=
      .cons ⟨rfl, fun _ => rfl⟩ (List.forall₂_same.mpr fun _ _ => ⟨rfl, fun _ => rfl⟩)
    rw [compoundType?_congr halike]
    cases hfound : compoundType? (l :: ls) with
    | none => rfl
    | some found =>
      obtain ⟨name, rest⟩ := found
      obtain ⟨words, -, -, taken, htaken, -⟩ := compoundType?_some hfound
      have hlt := compoundType?_length_lt hfound
      cases taken with
      | nil =>
        obtain rfl : l :: ls = rest := htaken
        exact absurd hlt (Nat.lt_irrefl _)
      | cons k taken =>
        obtain ⟨-, rfl⟩ := List.cons.inj htaken
        have hlength : taken.length + rest.length + 1 - rest.length = taken.length + 1 := by omega
        simp [hlength]
  by_cases hword : l.shape = .word
  · cases hfound : compoundType? (l :: ls) with
    | none =>
      refine ⟨ofLexeme d l ls, classify d ls, fun afterNewline spaced => ?_⟩
      exact classify_none fun _ => (hsame afterNewline spaced).trans hfound
    | some found =>
      refine ⟨⟨.type, found.1⟩, classify d found.2, fun afterNewline spaced => ?_⟩
      exact classify_some hword ((hsame afterNewline spaced).trans hfound)
  · refine ⟨ofLexeme d l ls, classify d ls, fun afterNewline spaced => ?_⟩
    exact classify_none fun h => absurd h hword

theorem shape_of_ofLexeme {l : Lexeme} {ls : List Lexeme}
    (h : (ofLexeme d l ls).kind = .semicolon) : l.shape = .mark .semicolon := by
  unfold ofLexeme at h
  cases hshape : l.shape with
  | word =>
    rw [hshape] at h
    have hword := ofWord_shape d l.text (startsWithParen ls)
    rw [h] at hword
    cases hword
  | mark kind =>
    rw [hshape] at h
    exact congrArg Shape.mark h
  | quoted => simp [hshape] at h
  | operator => simp [hshape] at h

/-- A semicolon that ends the items comes of one that ends the lexemes. -/
theorem getLast_of_classify {ls : List Lexeme} {s : Spaced} (hs : s ∈ (classify d ls).getLast?)
    (hkind : s.token.kind = .semicolon) : ∃ l ∈ ls.getLast?, l.shape = .mark .semicolon := by
  induction ls using classify_induction with
  | nil => simp [classify] at hs
  | compound l ls words taken rest hword hfound _ htaken _ ih =>
    rw [classify_some hword hfound] at hs
    rcases Unjoined.getLast_cons hs with ⟨-, rfl⟩ | hs
    · cases hkind
    · obtain ⟨k, hk, hshape⟩ := ih hs
      refine ⟨k, ?_, hshape⟩
      rw [htaken, List.getLast?_append, Option.mem_def.mp hk]
      rfl
  | lone l ls hnone ih =>
    rw [classify_none hnone] at hs
    cases ls with
    | nil =>
      obtain rfl : _ = s := by simpa [classify] using hs
      exact ⟨l, rfl, shape_of_ofLexeme hkind⟩
    | cons k ks =>
      rcases Unjoined.getLast_cons hs with ⟨hnil, -⟩ | hs
      · obtain ⟨token, items, hitems⟩ := @classify_cons d k ks
        cases (hitems k.afterNewline k.spaced).symm.trans hnil
      · exact ih hs

end Classify

section Resolve

/-- The prefix of a literal begins with an identifier or an operator. -/
theorem prefixedLiteral?_head {s : Spaced} (h : isPrefixPart s.token = false) (items : List Spaced) :
    prefixedLiteral? d (s :: items) = none := by
  rw [prefixedLiteral?, List.findSome?_eq_none_iff]
  intro p _
  rw [joinPrefix?, if_pos]
  rw [isPrefixPart] at h
  simp [h]

theorem resolve_ne_nil (s : Spaced) (items : List Spaced) : resolve d (s :: items) ≠ [] := by
  cases hfound : prefixedLiteral? d (s :: items) with
  | none => simp [resolve_none hfound]
  | some found =>
    obtain ⟨t, rest⟩ := found
    simp [resolve_some hfound]

variable {s : Spaced}

theorem joinPrefix?_append (hs : s.token.kind = .semicolon) (wanted joined : String) (first : Bool)
    (items more : List Spaced) :
    joinPrefix? wanted joined first (items ++ s :: more) =
      (joinPrefix? wanted joined first items).map fun found => (found.1, found.2 ++ s :: more) := by
  induction items generalizing joined first with
  | nil => simp [joinPrefix?, hs]
  | cons r items ih =>
    rw [List.cons_append, joinPrefix?.eq_def, joinPrefix?.eq_def wanted joined first]
    dsimp only
    split
    · rfl
    · split
      · exact ih _ false
      · split
        · rfl
        · cases items with
          | nil => simp [hs]
          | cons literal items =>
            dsimp only [List.cons_append]
            split <;> rfl

/-- Prefixes and their literals end at a semicolon. -/
theorem prefixedLiteral?_append (hs : s.token.kind = .semicolon) (items more : List Spaced) :
    prefixedLiteral? d (items ++ s :: more) =
      (prefixedLiteral? d items).map fun found => (found.1, found.2 ++ s :: more) := by
  unfold prefixedLiteral?
  induction d.literalPrefixes with
  | nil => rfl
  | cons p prefixes ih =>
    rw [List.findSome?_cons, List.findSome?_cons, ih, joinPrefix?_append hs]
    cases joinPrefix? p "" true items <;> rfl

theorem kindInContext_semicolon {s : Spaced} {rest : List Spaced}
    (h : kindInContext s rest = .semicolon) : s.token.kind = .semicolon := by
  rcases kindInContext_cases s rest with hsame | ⟨-, hother⟩ | ⟨-, hother⟩ | ⟨-, hother⟩
  · rwa [← hsame]
  all_goals simp [h] at hother

theorem resolve_semicolon (hs : s.token.kind = .semicolon) (items : List Spaced) :
    resolve d (s :: items) = ⟨.semicolon, s.token.text⟩ :: resolve d items := by
  rw [resolve_none (prefixedLiteral?_head (by simp [isPrefixPart, hs]) items)]
  simp [kindInContext, hs]

/-- What the neighbours decide before a semicolon is not decided by what is behind it. -/
theorem resolve_append_semicolon (hs : s.token.kind = .semicolon) (items more : List Spaced) :
    resolve d (items ++ s :: more) = resolve d items ++ resolve d (s :: more) := by
  fun_induction resolve d items with
  | case1 => rfl
  | case2 r items t rest hfound ih =>
    have happend := prefixedLiteral?_append (d := d) hs (r :: items) more
    rw [hfound, List.cons_append] at happend
    rw [List.cons_append, resolve_some happend, ih, List.cons_append]
  | case3 r items hnone ih =>
    have happend := prefixedLiteral?_append (d := d) hs (r :: items) more
    rw [hnone, List.cons_append] at happend
    have hkind : kindInContext r (items ++ s :: more) = kindInContext r items := by
      unfold kindInContext
      cases items with
      | nil => simp [hs]
      | cons => rfl
    rw [List.cons_append, resolve_none happend, ih, hkind, List.cons_append]

theorem getLast_of_resolve {items : List Spaced} {t : Token} (ht : t ∈ (resolve d items).getLast?)
    (hkind : t.kind = .semicolon) : ∃ s ∈ items.getLast?, s.token.kind = .semicolon := by
  induction items using resolve_induction d with
  | nil => simp [resolve] at ht
  | joined chain literal rest hprefixes hresolve ih =>
    rw [hresolve] at ht
    rcases Unjoined.getLast_cons ht with ⟨-, rfl⟩ | ht
    · cases hkind
    · obtain ⟨r, hr, hsemicolon⟩ := ih ht
      refine ⟨r, ?_, hsemicolon⟩
      rw [List.getLast?_append, List.getLast?_cons, Option.mem_def.mp hr]
      rfl
  | lone s items hnone hresolve ih =>
    rw [hresolve] at ht
    cases items with
    | nil =>
      obtain rfl : _ = t := by simpa [resolve] using ht
      exact ⟨s, rfl, kindInContext_semicolon hkind⟩
    | cons r items =>
      rcases Unjoined.getLast_cons ht with ⟨hnil, -⟩ | ht
      · exact absurd hnil (resolve_ne_nil r items)
      · exact ih ht

/-- No neighbour decides on a token but by the newline before AND and OR. -/
theorem resolve_cons {t : Token} {items : List Spaced} {afterNewline spaced : Bool}
    (h : ∀ u ∈ (resolve d (⟨t, afterNewline, spaced⟩ :: items)).head?, u.kind.isLink = false)
    (afterNewline' spaced' : Bool) :
    resolve d (⟨t, afterNewline', spaced'⟩ :: items) =
      resolve d (⟨t, afterNewline, spaced⟩ :: items) := by
  have hsame : prefixedLiteral? d (⟨t, afterNewline', spaced'⟩ :: items) =
      prefixedLiteral? d (⟨t, afterNewline, spaced⟩ :: items) := by
    simp [prefixedLiteral?, joinPrefix?]
  cases hfound : prefixedLiteral? d (⟨t, afterNewline, spaced⟩ :: items) with
  | some found =>
    obtain ⟨u, rest⟩ := found
    rw [resolve_some hfound, resolve_some (hsame.trans hfound)]
  | none =>
    rw [resolve_none hfound] at h ⊢
    have hkind : kindInContext ⟨t, afterNewline', spaced'⟩ items =
        kindInContext ⟨t, afterNewline, spaced⟩ items := by
      have hlink := h _ rfl
      unfold kindInContext at hlink ⊢
      dsimp only at hlink ⊢
      split at hlink
      · cases afterNewline <;> cases hlink
      · cases afterNewline <;> cases hlink
      · rfl
      · rfl
    rw [resolve_none (hsame.trans hfound), hkind]

end Resolve

theorem resolve_classify_append {l : Lexeme} (hl : l.shape = .mark .semicolon) (ks ls : List Lexeme) :
    resolve d (classify d (ks ++ l :: ls)) =
      resolve d (classify d (ks ++ [l])) ++ resolve d (classify d ls) := by
  have hsplit : ∀ ls, resolve d (classify d (ks ++ l :: ls)) =
      resolve d (classify d ks) ++ ⟨.semicolon, l.text⟩ :: resolve d (classify d ls) := by
    intro ls
    rw [classify_append_semicolon hl, classify_mark hl, resolve_append_semicolon rfl,
      resolve_semicolon rfl]
  have hnil : resolve d (classify d []) = [] := by simp [classify, resolve]
  rw [hsplit ls, hsplit [], hnil, List.append_assoc]
  rfl

theorem resolve_classify_cons {scraps : List Scrap} {afterNewline spaced : Bool}
    (h : ∀ u ∈ (resolve d (classify d (Scrap.lexemes afterNewline spaced scraps))).head?,
      u.kind.isLink = false) (afterNewline' spaced' : Bool) :
    resolve d (classify d (Scrap.lexemes afterNewline' spaced' scraps)) =
      resolve d (classify d (Scrap.lexemes afterNewline spaced scraps)) := by
  cases scraps with
  | nil => rfl
  | cons s scraps =>
    obtain ⟨t, items, hitems⟩ := @classify_cons d ⟨s.shape, String.ofList s.text, false, false⟩
      (Scrap.lexemes false false scraps)
    dsimp only at hitems
    rw [Scrap.lexemes, hitems] at h ⊢
    rw [Scrap.lexemes, hitems]
    exact resolve_cons h _ _

end Token

open Scrap in
/-- The tokens of a text that ends with a semicolon, and of another text behind it. -/
theorem tokenize_append {d : Dialect} (tame : d.Tame) {first second : String} {ts us : List Token}
    (hfirst : tokenize d first = .ok (ts ++ [Token.eof]))
    (hlast : ∃ t ∈ ts.getLast?, t.kind = .semicolon)
    (hsecond : tokenize d second = .ok (us ++ [Token.eof]))
    (hhead : ∀ u ∈ us.head?, u.kind.isLink = false) :
    tokenize d (first ++ second) = .ok (ts ++ us ++ [Token.eof]) := by
  obtain ⟨scraps, tail, hlegible, htext, hts⟩ := tokenize_ok hfirst
  obtain ⟨more, tail', hlegible', htext', hus⟩ := tokenize_ok hsecond
  obtain rfl := List.append_cancel_right hts
  obtain rfl := List.append_cancel_right hus
  obtain ⟨t, ht, hkind⟩ := hlast
  obtain ⟨item, hitem, hitemKind⟩ := Token.getLast_of_resolve ht hkind
  obtain ⟨l, hl, hshape⟩ := Token.getLast_of_classify hitem hitemKind
  rcases List.eq_nil_or_concat' scraps with rfl | ⟨before, s, rfl⟩
  · cases hl
  obtain ⟨ks, k, hk, hlexemes⟩ := lexemes_concat false true before s
  obtain rfl : k = l := by simpa [hlexemes, lexemes] using hl
  -- the white space behind the semicolon goes to the text that follows
  obtain ⟨more', tail'', afterNewline, spaced, hmore, hmoreText, hsame⟩ :=
    hlegible'.exists_after tail hlegible.gaps.2
  have hscan : Lexeme.scan d.operators (first ++ second) =
      .ok (lexemes false true (before ++ s :: more')) := by
    refine scan_iff.mpr ⟨_, tail'',
      hlegible.behind_mark tame.operators (hk.symm.trans hshape) hmore, ?_, rfl⟩
    rw [String.toList_append, htext, htext']
    simp only [flat_append, flat_cons, flat_nil, List.append_nil, List.append_assoc, hmoreText]
  have hrest := Token.resolve_classify_cons hhead afterNewline spaced
  rw [tokenize, hscan]
  dsimp only
  rw [hlexemes, hsame, Token.resolve_classify_append hshape, hrest, hlexemes]
  rfl

end SqlLayout
