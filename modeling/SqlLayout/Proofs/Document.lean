import SqlLayout.Proofs.Verbatim
import SqlLayout.Proofs.Visible

/-! Documents. A document is a padded layout without the newline at its start and with one at its end.
It is read like the layout, with one exception: a literal without end takes the newline at the end of
the document. -/

namespace SqlLayout
set_option autoImplicit false
open Token

theorem Text.decode_toUTF8 (text : String) : decode text.toUTF8 = .ok text := by
  have hvalid : String.fromUTF8? text.toUTF8 = some text := by
    rw [String.fromUTF8?, dif_pos (show text.toUTF8.IsValidUTF8 from text.isValidUTF8)]
    rfl
  rw [decode, hvalid]

theorem not_opensEscape_append {c : Char} {cs tail : List Char} (htail : Scrap.isBlank tail)
    (h : ∀ ds, c = '\x1b' → cs = '[' :: ds → False) :
    ¬opensEscape c cs ∧ ¬opensEscape c (cs ++ tail) := by
  have hcs : ¬opensEscape c cs := by
    rintro ⟨hc, hhead⟩
    obtain ⟨ds, hds⟩ := bracket_of_head hhead
    exact h ds hc hds
  refine ⟨hcs, ?_⟩
  rintro ⟨hc, hhead⟩
  cases cs with
  | nil =>
    have hbracket : Text.isWhitespace '[' = true := htail '[' (List.mem_of_head? hhead)
    cases hbracket
  | cons d ds => exact hcs ⟨hc, by simpa using hhead⟩

theorem visible_append_blank {tail : List Char} (htail : Scrap.isBlank tail) (inside : Bool)
    (text : List Char) : visible inside (text ++ tail) = visible inside text := by
  induction inside, text using Color.stripFrom.induct with
  | case1 inside =>
    have hblank := visible_blank htail inside []
    rwa [List.append_nil] at hblank
  | case2 inside cs ih =>
    rw [List.cons_append, List.cons_append, visible_escape, visible_escape]
    exact ih
  | case3 c cs hescape ih =>
    obtain ⟨hcs, happend⟩ := not_opensEscape_append htail hescape
    rw [List.cons_append, visible_true happend, visible_true hcs]
    exact ih
  | case4 inside c cs hescape hinside ih =>
    obtain rfl : inside = false := by simpa using hinside
    obtain ⟨hcs, happend⟩ := not_opensEscape_append htail hescape
    rw [List.cons_append, visible_false happend, visible_false hcs, ih]

def dropNewline : List Char → List Char
  | '\n' :: cs => cs
  | cs => cs

theorem dropNewline_cons {c : Char} (h : c ≠ '\n') (cs : List Char) :
    dropNewline (c :: cs) = c :: cs := by
  unfold dropNewline
  split
  · rename_i heq
    exact absurd (List.cons.inj heq).1 h
  · rfl

/-- A document is a formatted text with other white space at its ends. -/
theorem toList_asDocument (out : String) :
    ∃ ending, Scrap.isBlank ending ∧ (ending = [] ↔ dropNewline out.toList = []) ∧
      (asDocument out).toList = dropNewline out.toList ++ ending := by
  have hbody : asDocument out = if (dropNewline out.toList).isEmpty then "" else
      String.ofList (dropNewline out.toList ++ ['\n']) := by
    unfold asDocument dropNewline
    rfl
  rw [hbody]
  by_cases hempty : dropNewline out.toList = []
  · refine ⟨[], by simp [Scrap.isBlank], by simp [hempty], ?_⟩
    simp [hempty]
  · refine ⟨['\n'], Scrap.isBlank_of_spaces (by simp), by simp [hempty], ?_⟩
    simp [hempty]

theorem content_asDocument (out : String) : content (asDocument out).toList = content out.toList := by
  obtain ⟨ending, hblank, -, hdocument⟩ := toList_asDocument out
  have hdrop : visible false (dropNewline out.toList) = visible false out.toList := by
    unfold dropNewline
    split
    · rename_i cs heq
      rw [heq]
      have hblank : Scrap.isBlank ['\n'] := Scrap.isBlank_of_spaces (by simp)
      exact (visible_blank hblank false cs).symm
    · rfl
  rw [content_eq, content_eq, hdocument, visible_append_blank hblank, hdrop]

theorem dropNewline_padFrom (n : Nat) (text : List Char) :
    dropNewline (padFrom n true text) = padFrom n true (dropNewline text) := by
  cases text with
  | nil => rfl
  | cons c cs =>
    by_cases hc : c = '\n'
    · rw [hc]
      rfl
    · rw [dropNewline_cons hc, padFrom, if_neg hc, if_pos rfl]
      cases n with
      | zero => exact dropNewline_cons hc _
      | succ n => exact dropNewline_cons (by decide) _

theorem dropNewline_append {c : Char} (hc : c ≠ '\n') (gap cs : List Char) :
    dropNewline (gap ++ c :: cs) = dropNewline gap ++ c :: cs := by
  cases gap with
  | nil => exact dropNewline_cons hc cs
  | cons e gap =>
    by_cases he : e = '\n'
    · rw [he]
      rfl
    · rw [List.cons_append, dropNewline_cons he, dropNewline_cons he]
      rfl

theorem isBlank_dropNewline {gap : List Char} (h : Scrap.isBlank gap) :
    Scrap.isBlank (dropNewline gap) := by
  unfold dropNewline
  split
  · exact fun c hc => h c (List.mem_cons_of_mem _ hc)
  · exact h

namespace Piece
variable {o : Options} {d : Dialect} {pieces : List Piece} {tail : List Char}

/-- The pieces without the newline that their layout begins with. -/
def unled : List Piece → List Piece
  | [] => []
  | p :: pieces => ⟨dropNewline p.gap, p.token⟩ :: pieces

theorem unled_tokens (pieces : List Piece) :
    (unled pieces).map Piece.token = pieces.map Piece.token := by
  cases pieces <;> rfl

theorem dropNewline_flat (hlined : ∀ p ∈ pieces, p.token.Lined o) (htail : pieces = [] → tail = []) :
    dropNewline (flat o pieces ++ tail) = flat o (unled pieces) ++ tail := by
  cases pieces with
  | nil =>
    rw [htail rfl]
    rfl
  | cons p pieces =>
    obtain ⟨c, cs, hcs, hc⟩ := (hlined p List.mem_cons_self).head
    rw [unled, flat_cons, flat_cons, hcs]
    simp only [List.append_assoc, List.cons_append]
    exact dropNewline_append hc _ _

theorem Readable.unled (h : Readable o d pieces tail) : Readable o d (unled pieces) tail := by
  have htokens := unled_tokens pieces
  cases pieces with
  | nil => exact h
  | cons p pieces =>
    obtain ⟨hgap, hmore⟩ := List.forall_mem_cons.mp h.blank
    obtain ⟨hfirst, hchain⟩ := List.isChain_cons.mp h.apart
    exact {
      known := htokens ▸ h.known
      blank := List.forall_mem_cons.mpr ⟨isBlank_dropNewline hgap, hmore⟩
      apart := List.isChain_cons.mpr ⟨hfirst, hchain⟩
      closed := htokens ▸ h.closed
      end_blank := h.end_blank
      last := htokens ▸ h.last }

end Piece

/-- The token with more characters at its end. -/
def Token.extend (t : Token) (extra : List Char) : Token :=
  ⟨t.kind, String.ofList (t.text.toList ++ extra)⟩

/-- A literal without end may go on, as long as no quote follows. -/
theorem Token.Known.extend {o : Options} {d : Dialect} (strict : d.Strict) {t : Token}
    (h : t.Known o d) (hopen : t.isOpen = true) {extra : List Char} (hextra : Unquoted extra) :
    (t.extend extra).Known o d ∧ (t.extend extra).isOpen = true ∧
      (t.extend extra).body = t.body ++ extra := by
  rw [isOpen_eq, Bool.and_eq_true, decide_eq_true_eq, Bool.not_eq_true'] at hopen
  obtain ⟨hkind, hclosed⟩ := hopen
  obtain ⟨affix, htext, hstands, haffix⟩ := h.parts strict hkind
  have htext' : (t.extend extra).text.toList = affix ++ (t.body ++ extra) := by
    rw [Token.extend, String.toList_ofList, ← List.append_assoc, ← htext]
  obtain ⟨q, word, hbody, -⟩ := Scrap.stands_head hstands
  rw [hbody] at hstands hclosed htext' ⊢
  obtain ⟨hq, -⟩ := stands_quoted_iff.mp hstands
  have hfree : q ∉ extra := by
    intro hmem
    rw [hextra q hmem] at hq
    cases hq
  have hstands' : Lexeme.Stands d.ops .quoted (q :: word ++ extra) [] :=
    stands_quoted_iff.mpr ⟨hq, Quoted.split_open hclosed hfree⟩
  have hbody' : (t.extend extra).body = q :: word ++ extra :=
    body_of_append htext' (plain_affix strict haffix).1 (head_of_quoted hstands')
  refine ⟨.of_literal hkind ⟨affix, _, htext', hstands', haffix⟩, ?_, hbody'⟩
  have hclosed' : Lexeme.isClosed (q :: word ++ extra) = false := Quoted.closes_open hclosed hfree
  rw [isOpen_eq, hbody', hclosed']
  simpa [Token.extend] using hkind

/-- The quoted parts of the literals among the tokens. -/
def Token.bodies (ts : List Token) : List (List Char) := (ts.filter (·.kind = .string)).map body

theorem Token.bodies_concat (ts : List Token) {t : Token} (h : t.kind = .string) :
    bodies (ts ++ [t]) = bodies ts ++ [t.body] := by
  simp [bodies, h]

theorem Token.bodies_eq (ts : List Token) :
    bodies ts = (literals ts).map fun text => text.toList.dropWhile (!Lexeme.isQuote ·) := by
  rw [bodies, literals, List.map_map]
  rfl

theorem Token.bodies_padded (n : Nat) (ts : List Token) :
    bodies (ts.map (Token.padded n)) = (bodies ts).map (padFrom n false) := by
  induction ts with
  | nil => rfl
  | cons t ts ih =>
    unfold bodies at ih ⊢
    by_cases hkind : t.kind = .string
    · simp [kind_padded, hkind, ih, body_padded n hkind]
    · simp [kind_padded, hkind, ih]

namespace Piece
variable {o : Options} {d : Dialect} {pieces : List Piece} {tail : List Char}

/-- A literal is read with its quoted part, whether its prefix is read or not. -/
theorem readings_bodies (before : List Char) (pieces : List Piece) :
    (readings o before pieces).map (fun text => text.toList.dropWhile (!Lexeme.isQuote ·)) =
      bodies (pieces.map Piece.token) := by
  induction pieces generalizing before with
  | nil => rfl
  | cons p pieces ih =>
    have hbody : p.token.body.dropWhile (!Lexeme.isQuote ·) = p.token.body :=
      List.dropWhile_idempotent ..
    rw [readings, List.map_cons]
    by_cases hkind : p.token.kind = .string
    · have hcons : bodies (p.token :: pieces.map Piece.token) =
          p.token.body :: bodies (pieces.map Piece.token) := by simp [bodies, hkind]
      rw [if_pos hkind, hcons, List.map_cons, ih]
      split
      · rfl
      · rw [String.toList_ofList, hbody]
    · have hcons : bodies (p.token :: pieces.map Piece.token) = bodies (pieces.map Piece.token) := by
        simp [bodies, hkind]
      rw [if_neg hkind, hcons, ih]

namespace Readable

theorem tokenize_bodies (strict : d.Strict) (h : Readable o d pieces tail) :
    ∃ us, tokenize d (String.ofList (flat o pieces ++ tail)) = .ok (us ++ [Token.eof]) ∧
      bodies us = bodies (pieces.map Piece.token) := by
  obtain ⟨us, hus, hliterals⟩ := h.tokenize_literals strict
  exact ⟨us, hus, by rw [bodies_eq, hliterals, readings_bodies]⟩

/-- A literal without end takes the white space behind it. -/
theorem extend (strict : d.Strict) {p : Piece} (h : Readable o d (pieces ++ [p]) [])
    (hopen : p.token.isOpen = true) {extra : List Char} (hextra : Scrap.isBlank extra) :
    Readable o d (pieces ++ [⟨p.gap, p.token.extend extra⟩]) [] ∧
      flat o (pieces ++ [⟨p.gap, p.token.extend extra⟩]) = flat o (pieces ++ [p]) ++ extra := by
  have hkind : p.token.kind = .string := by
    rw [isOpen_eq, Bool.and_eq_true, decide_eq_true_eq] at hopen
    exact hopen.1
  have hknown := h.known
  have hclosed := h.closed
  rw [List.map_append] at hknown hclosed
  obtain ⟨hknown, hlast⟩ := List.forall_mem_append.mp hknown
  have hextend :=
    (List.forall_mem_singleton.mp hlast).extend strict hopen (unquoted_blank hextra)
  constructor
  · constructor
    case known =>
      rw [List.map_append]
      exact List.forall_mem_append.mpr ⟨hknown, List.forall_mem_singleton.mpr hextend.1⟩
    case blank =>
      obtain ⟨hblank, hgap⟩ := List.forall_mem_append.mp h.blank
      have hgap : Scrap.isBlank p.gap := hgap p (List.mem_singleton.mpr rfl)
      exact List.forall_mem_append.mpr ⟨hblank, by simpa using hgap⟩
    case apart =>
      obtain ⟨hfirst, -, hlast⟩ := List.isChain_append.mp h.apart
      refine List.isChain_append.mpr ⟨hfirst, .singleton _, ?_⟩
      intro q hq r hr hgap
      obtain rfl := Option.some.inj hr
      refine (hlast q hq p rfl hgap).imp id fun hhugs => ?_
      simp [Token.hugs, Draft.hugsLeft, isCast, hkind] at hhugs
    case closed =>
      rw [List.map_append]
      obtain ⟨hfirst, -, hlast⟩ := List.isChain_append.mp hclosed
      refine List.isChain_append.mpr ⟨hfirst, .singleton _, ?_⟩
      exact fun t ht u _ => hlast t ht p.token rfl
    case end_blank => exact h.end_blank
    case last => exact Or.inl rfl
  · have hspelling : ∀ t : Token, t.kind = .string → t.spelling o = t.text := by
      intro t ht
      simp [spelling, ht, TokenKind.isVerbatim]
    rw [flat_append, flat_append, flat_cons, flat_cons, hspelling _ hkind,
      hspelling (p.token.extend extra) hkind]
    simp [Token.extend]

theorem tokenize_closed (strict : d.Strict) (h : Readable o d pieces tail) (n : Nat)
    {ending : List Char} (hending : Scrap.isBlank ending)
    (hclosed : ∀ t ∈ pieces.map Piece.token, t.isOpen = false) :
    ∃ us, tokenize d (String.ofList (padFrom n true (flat o pieces ++ tail) ++ ending)) =
        .ok (us ++ [Token.eof]) ∧
      bodies us = (bodies (pieces.map Piece.token)).map (padFrom n false) := by
  obtain ⟨rest, -, hflat, hpadded⟩ := h.padded strict n true
  have htokens := padded_tokens o n true pieces
  have hall : ∀ t ∈ (Piece.padded o n true pieces).map Piece.token, t.isOpen = false := by
    rw [htokens, List.forall_mem_map]
    intro t ht
    rw [((h.known t ht).padded strict n).2]
    exact hclosed t ht
  have hagain : Readable o d (Piece.padded o n true pieces) (rest ++ ending) :=
    ⟨hpadded.known, hpadded.blank, hpadded.apart, hpadded.closed,
      isBlank_append hpadded.end_blank hending,
      Or.inr fun t ht => hall t (List.mem_of_getLast? ht)⟩
  obtain ⟨us, hus, hbodies⟩ := hagain.tokenize_bodies strict
  refine ⟨us, ?_, ?_⟩
  · rw [hflat, List.append_assoc]
    exact hus
  · rw [hbodies, htokens, bodies_padded]

theorem tokenize_open (strict : d.Strict) (h : Readable o d pieces tail) (n : Nat)
    {ending : List Char} (hending : Scrap.isBlank ending) {ts : List Token} {t : Token}
    (hts : pieces.map Piece.token = ts ++ [t]) (hopen : t.isOpen = true) :
    ∃ us, tokenize d (String.ofList (padFrom n true (flat o pieces ++ tail) ++ ending)) =
        .ok (us ++ [Token.eof]) ∧
      bodies us = (bodies ts).map (padFrom n false) ++ [padFrom n false t.body ++ ending] ∧
      Lexeme.isClosed (padFrom n false t.body ++ ending) = false := by
  have hkind : t.kind = .string := by
    rw [isOpen_eq, Bool.and_eq_true, decide_eq_true_eq] at hopen
    exact hopen.1
  obtain ⟨rest, hnil, hflat, hpadded⟩ := h.padded strict n true
  obtain rfl : rest = [] := by
    rw [hnil]
    refine h.last.resolve_right fun hlast => ?_
    have hfalse := hlast t (by rw [hts, List.getLast?_concat]; rfl)
    rw [hopen] at hfalse
    cases hfalse
  have htokens := padded_tokens o n true pieces
  rw [hts, List.map_append, List.map_cons, List.map_nil] at htokens
  obtain ⟨init, last, hsplit, hinit, hlast⟩ := List.map_eq_append_iff.mp htokens
  obtain ⟨p, rfl, hp⟩ := List.map_eq_singleton_iff.mp hlast
  rw [hsplit] at hflat hpadded
  have hknown := hpadded.known p.token (by simp)
  have hpopen : p.token.isOpen = true := by
    rw [hp, ((h.known t (by rw [hts]; simp)).padded strict n).2]
    exact hopen
  obtain ⟨hagain, hextended⟩ := hpadded.extend strict hpopen hending
  obtain ⟨us, hus, hbodies⟩ := hagain.tokenize_bodies strict
  obtain ⟨-, hstill, hbody⟩ := hknown.extend strict hpopen (unquoted_blank hending)
  rw [show p.token.body = padFrom n false t.body by rw [hp, body_padded n hkind]] at hbody
  rw [isOpen_eq, hbody, Bool.and_eq_true, decide_eq_true_eq, Bool.not_eq_true'] at hstill
  refine ⟨us, ?_, ?_, hstill.2⟩
  · rw [hflat, List.append_nil, ← hextended]
    rwa [List.append_nil] at hus
  · rw [hbodies, List.map_append, List.map_singleton, bodies_concat _ hstill.1, hinit, bodies_padded,
      hbody]

end Readable
end Piece

/-- Either no literal is open, or the last token is. -/
theorem Token.open_cases {ts : List Token} (h : ts.IsChain fun t _ => t.isOpen = false) :
    (∀ t ∈ ts, t.isOpen = false) ∨ ∃ us t, ts = us ++ [t] ∧ t.isOpen = true := by
  induction ts with
  | nil => exact Or.inl (by simp)
  | cons t ts ih =>
    rw [List.isChain_cons] at h
    rcases ih h.2 with hclosed | ⟨us, u, rfl, hopen⟩
    · cases ts with
      | nil =>
        cases hopen : t.isOpen with
        | false => exact Or.inl (by simpa using hopen)
        | true => exact Or.inr ⟨[], t, rfl, hopen⟩
      | cons u ts => exact Or.inl (List.forall_mem_cons.mpr ⟨h.1 u rfl, hclosed⟩)
    · exact Or.inr ⟨t :: us, u, rfl, hopen⟩

end SqlLayout
