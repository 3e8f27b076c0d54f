import Mathlib.Data.List.DropRight
import SqlLayout.Proofs.Literals
import SqlLayout.Proofs.RoundTrip

/-! Literals of a formatted text. A literal keeps its text unless a line begins inside it and lines
are padded, or an odd number of colons stands before its prefix. -/

namespace SqlLayout
set_option autoImplicit false
open Token

/-- The literal is written with a prefix. -/
def Token.isPrefixed (t : Token) : Bool := t.kind = .string && t.body ≠ t.text.toList

/-- A padded literal, read with its prefix or without it, is the literal only when no line begins
inside it and its prefix is read. -/
theorem Token.padded_reads_iff (n : Nat) {t : Token} (hkind : t.kind = .string) {p : Prop}
    [Decidable p] :
    (if p then (t.padded n).text else String.ofList (t.padded n).body) = t.text ↔
      (n = 0 ∨ Unbroken t.text.toList) ∧ (t.isPrefixed = true → p) := by
  have hpadded : String.ofList (padFrom n false t.text.toList) = t.text ↔
      n = 0 ∨ Unbroken t.text.toList := by
    rw [← String.toList_inj, String.toList_ofList, padFrom_eq_self_iff]
    simp
  by_cases hp : p
  · rw [if_pos hp, Token.padded, if_pos hkind, hpadded]
    simp [hp]
  · rw [if_neg hp, body_padded n hkind]
    by_cases hbody : t.body = t.text.toList
    · rw [hbody, hpadded]
      simp [isPrefixed, hbody]
    · -- the quoted part begins with a quote, and the literal does not
      have hne : String.ofList (padFrom n false t.body) ≠ t.text := by
        intro heq
        apply hbody
        rw [body, ← heq, ← body_padded n hkind, String.toList_ofList, body,
          List.dropWhile_idempotent]
      simp [hne, isPrefixed, hkind, hbody, hp]

theorem Token.literals_concat_eof (ts : List Token) : literals (ts ++ [eof]) = literals ts := by
  simp [literals, eof]

namespace Piece
variable {o : Options}

/-- An even number of colons stands before every literal with a prefix. -/
def Seamless (o : Options) (before : List Char) : List Piece → Prop
  | [] => True
  | p :: pieces =>
    (p.token.isPrefixed = true → colonRun (before ++ p.gap) % 2 = 0) ∧
      Seamless o (before ++ p.gap ++ (p.token.spelling o).toList) pieces

/-- The readings of a padded layout are its literals exactly when no line that begins inside a
literal is padded, and no prefix is cut off. -/
theorem readings_padded_iff (n : Nat) {pieces : List Piece} (hlined : ∀ p ∈ pieces, p.token.Lined o)
    (before : List Char) :
    readings o (padFrom n true before) (padded o n (startsLine true before) pieces) =
        Token.literals (pieces.map Piece.token) ↔
      (n = 0 ∨ ∀ p ∈ pieces, p.token.kind = .string → Unbroken p.token.text.toList) ∧
        Seamless o before pieces := by
  induction pieces generalizing before with
  | nil => simp [padded, readings, Token.literals, Seamless]
  | cons p pieces ih =>
    have hp := hlined p List.mem_cons_self
    have hmore := ih (fun q hq => hlined q (List.mem_cons_of_mem p hq))
      (before ++ p.gap ++ (p.token.spelling o).toList)
    have hgap : padFrom n true before ++ (padFrom n (startsLine true before) p.gap ++
          if startsLine (startsLine true before) p.gap then List.replicate n ' ' else []) =
        padFrom n true (before ++ p.gap) ++
          if startsLine true (before ++ p.gap) then List.replicate n ' ' else [] := by
      rw [padFrom_append, startsLine_append, List.append_assoc]
    have hnext : padFrom n true (before ++ p.gap ++ (p.token.spelling o).toList) =
        padFrom n true (before ++ p.gap) ++ (if startsLine true (before ++ p.gap) then
          List.replicate n ' ' else []) ++ ((p.token.padded n).spelling o).toList := by
      rw [padFrom_append, hp.padFrom, List.append_assoc]
    rw [startsLine_append, hp.startsLine, hnext] at hmore
    rw [padded, readings, hgap, colonRun_padFrom, Token.kind_padded, List.map_cons, Seamless]
    by_cases hkind : p.token.kind = .string
    · rw [if_pos hkind, Token.literals_cons_string hkind, List.cons.injEq, hmore,
        Token.padded_reads_iff n hkind]
      simp only [List.forall_mem_cons, hkind, forall_const]
      by_cases hn : n = 0
      · simp [hn]
      · simp only [hn, false_or]
        exact and_and_and_comm
    · have hprefixed : p.token.isPrefixed = false := by simp [Token.isPrefixed, hkind]
      rw [if_neg hkind, Token.literals_cons hkind, hmore]
      simp [hkind, hprefixed]

/-- A layout that is always read again: its pieces are tokens that a text can have, only the last of
which may be a literal without end, and stand apart where they have to. -/
structure Readable (o : Options) (d : Dialect) (pieces : List Piece) (tail : List Char) : Prop where
  known : ∀ t ∈ pieces.map Piece.token, t.Known o d
  blank : ∀ p ∈ pieces, Scrap.isBlank p.gap
  apart : pieces.IsChain Apart
  closed : (pieces.map Piece.token).IsChain fun t _ => t.isOpen = false
  end_blank : Scrap.isBlank tail
  last : tail = [] ∨ ∀ t ∈ (pieces.map Piece.token).getLast?, t.isOpen = false

namespace Readable
variable {d : Dialect} {pieces : List Piece} {tail : List Char}

theorem lined (strict : d.Strict) (h : Readable o d pieces tail) : ∀ p ∈ pieces, p.token.Lined o :=
  fun _ hp => (h.known _ (List.mem_map_of_mem hp)).lined strict

theorem padded (strict : d.Strict) (h : Readable o d pieces tail) (n : Nat) (atStart : Bool) :
    ∃ rest, (rest = [] ↔ tail = []) ∧
      padFrom n atStart (flat o pieces ++ tail) =
        flat o (Piece.padded o n atStart pieces) ++ rest ∧
      Readable o d (Piece.padded o n atStart pieces) rest := by
  obtain ⟨rest, hrest, hnil, hflat⟩ := padFrom_flat o n atStart (h.lined strict) h.end_blank
  have htokens := padded_tokens o n atStart pieces
  have hpadded : ∀ t ∈ pieces.map Piece.token,
      (t.padded n).Known o d ∧ (t.padded n).isOpen = t.isOpen :=
    fun t ht => (h.known t ht).padded strict n
  refine ⟨rest, hnil, hflat, ⟨?_, padded_blank o n atStart h.blank, padded_apart o n atStart h.apart,
    ?_, hrest, ?_⟩⟩
  · rw [htokens, List.forall_mem_map]
    exact fun t ht => (hpadded t ht).1
  · rw [htokens, List.isChain_map]
    apply h.closed.imp_of_mem_imp
    intro t u ht _ hclosed
    rw [(hpadded t ht).2]
    exact hclosed
  · refine h.last.imp hnil.mpr ?_
    intro hlast u hu
    rw [htokens, List.getLast?_map] at hu
    obtain ⟨t, ht, rfl⟩ := Option.map_eq_some_iff.mp hu
    rw [(hpadded t (List.mem_of_getLast? ht)).2]
    exact hlast t ht

theorem tokenize_literals (strict : d.Strict) (h : Readable o d pieces tail) :
    ∃ us, tokenize d (String.ofList (flat o pieces ++ tail)) = .ok (us ++ [Token.eof]) ∧
      Token.literals us = readings o [] pieces := by
  have hclosed := h.closed
  rw [List.isChain_map] at hclosed
  have hlast : tail = [] ∨ ∀ p ∈ pieces.getLast?, p.token.isOpen = false := by
    refine h.last.imp id fun hlast p hp => hlast p.token ?_
    rw [List.getLast?_map, hp]
    rfl
  obtain ⟨scraps, rest, hlegible, htext, hread⟩ :=
    @exists_readings o d strict [] pieces [] tail
      ⟨fun p hp => h.known _ (List.mem_map_of_mem hp), h.blank, h.apart⟩ (by simp) hclosed
      h.end_blank hlast fun _ => ⟨[], rfl, by simp⟩
  rw [List.nil_append] at htext
  have hscan := Scrap.scan_iff.mpr
    ⟨scraps, rest, hlegible, String.toList_ofList.trans htext.symm, rfl⟩
  exact ⟨_, by rw [tokenize, hscan], hread false true⟩

end Readable
end Piece

theorem readable_layout {o : Options} (strict : o.dialect.Strict) {source : String}
    {ts : List Token} {statements : List Statement}
    (hsource : tokenize o.dialect source = .ok (ts ++ [Token.eof]))
    (hlaid : LaidOut o ts statements) :
    Piece.Readable o o.dialect (layoutPieces o statements) (layoutTail o statements) := by
  refine ⟨?_, hlaid.blank, hlaid.apart, ?_, hlaid.tail, ?_⟩
  · rw [hlaid.tokens]
    exact known_of_tokenize strict o hsource
  · rw [hlaid.tokens]
    exact closed_of_tokenize strict.tame hsource
  · refine hlaid.last.imp id ?_
    rintro ⟨p, hp, hcomma⟩ t ht
    rw [List.getLast?_map, hp] at ht
    obtain rfl : p.token = t := Option.some.inj ht
    simp [isOpen, hcomma]

/-- The literals of a formatted text are those of its source exactly when no line that begins inside
a literal is padded, and no prefix of a literal stands behind an odd number of colons. -/
theorem format_keeps_literals_iff {o : Options} {source out : String} {ts : List Token}
    (hdialects : o.dialects = []) (hcolor : o.colorized = false)
    (h : format o source = .ok out) (htokens : tokenize o.dialect source = .ok ts) :
    ∃ us statements, tokenize o.dialect out = .ok us ∧ Statement.parse ts = .ok statements ∧
      (Token.literals us = Token.literals ts ↔
        (o.distance = 0 ∨ ∀ t ∈ ts, t.kind = .string → Unbroken t.text.toList) ∧
          Piece.Seamless o [] (layoutPieces o statements)) := by
  obtain ⟨ts, statements, hsource, heof, hparse, hout, -⟩ := format_ok h
  obtain rfl := Except.ok.inj (htokens.symm.trans hsource)
  rw [draft_text hcolor] at hout
  have strict : o.dialect.Strict := by
    rw [Options.dialect, hdialects]
    exact Dialect.builtin_strict
  have hlaid := parse_laidOut o heof hparse
  have hreadable := readable_layout strict hsource hlaid
  obtain ⟨rest, -, hpadded, hagain⟩ := hreadable.padded strict o.distance true
  obtain ⟨us, hus, hliterals⟩ := hagain.tokenize_literals strict
  rw [← hpadded, ← pad, ← hout, String.ofList_toList] at hus
  refine ⟨_, statements, hus, hparse, ?_⟩
  have hiff := Piece.readings_padded_iff o.distance (hreadable.lined strict) []
  have htexts : (∀ p ∈ layoutPieces o statements, p.token.kind = .string →
      Unbroken p.token.text.toList) ↔
      ∀ t ∈ ts ++ [Token.eof], t.kind = .string → Unbroken t.text.toList := by
    rw [← hlaid.tokens, List.forall_mem_append, List.forall_mem_map]
    simp [Token.eof]
  rw [literals_concat_eof, hliterals, literals_concat_eof, ← htexts, ← hlaid.tokens]
  exact hiff

theorem format_breaks_padded_literal :
    ∃ us, tokenize ({} : Options).dialect "\n  SELECT\n    'a\n  b'" = .ok us ∧
      Token.literals us ≠ ["'a\nb'"] := by
  have htokens : tokenize ({ distance := 2 } : Options).dialect "SELECT 'a\nb'" =
      .ok [⟨.keyword .SELECT, "SELECT"⟩, ⟨.string, "'a\nb'"⟩, Token.eof] := by decide +kernel
  obtain ⟨us, statements, hus, -, hiff⟩ :=
    @format_keeps_literals_iff { distance := 2 } "SELECT 'a\nb'" "\n  SELECT\n    'a\n  b'" _ rfl rfl
      (by decide +kernel) htokens
  refine ⟨us, hus, fun heq => ?_⟩
  have hwhole := (hiff.mp heq).1
  revert hwhole
  decide

end SqlLayout
