import SqlLayout.Proofs.Rewinding
import SqlLayout.Proofs.Scanning

/-! Lexemes off a tape. Words, literals and operators end between two characters, and what is put back has
been remembered; so a tape gives the lexemes that are cut off the front of the text, and nothing stops it
but a comment. -/

namespace SqlLayout
set_option autoImplicit false
open Lexeme (byteSize)

namespace Text
variable {q c : Char}

theorem utf8EncodeChar_ascii (h : c.toNat < 128) : String.utf8EncodeChar c = [UInt8.ofNat c.toNat] := by
  have hle : c.val.toNat ≤ 127 := Nat.le_of_lt_succ h
  rw [String.utf8EncodeChar]
  exact if_pos hle

theorem le_of_mem_utf8EncodeChar (h : 128 ≤ c.toNat) : ∀ b ∈ String.utf8EncodeChar c, 128 ≤ b.toNat := by
  have hlow : ¬c.val.toNat ≤ 127 := Nat.not_le_of_lt h
  unfold String.utf8EncodeChar
  dsimp only
  rw [if_neg hlow]
  split
  · simp
    omega
  · split
    · simp
      omega
    · simp
      omega

theorem ne_of_mem_utf8EncodeChar (hq : q.toNat < 128) (hne : c ≠ q) :
    ∀ b ∈ String.utf8EncodeChar c, b ≠ UInt8.ofNat q.toNat := by
  intro b hb heq
  have hbyte : b.toNat = q.toNat := by
    rw [heq, UInt8.toNat_ofNat']
    omega
  rcases Nat.lt_or_ge c.toNat 128 with hc | hc
  · rw [utf8EncodeChar_ascii hc, List.mem_singleton] at hb
    rw [hb, UInt8.toNat_ofNat', Nat.mod_eq_of_lt (by omega)] at hbyte
    exact hne (Char.toNat_inj.mp hbyte)
  · have := le_of_mem_utf8EncodeChar hc b hb
    omega

theorem utf8Size_ascii (h : c.toNat < 128) : c.utf8Size = 1 := by
  rw [← String.length_utf8EncodeChar, utf8EncodeChar_ascii h]
  rfl

theorem bytes_cons (c : Char) (cs : List Char) : bytes (c :: cs) = String.utf8EncodeChar c ++ bytes cs := rfl

theorem bytes_cons_ascii (h : c.toNat < 128) (cs : List Char) :
    bytes (c :: cs) = UInt8.ofNat c.toNat :: bytes cs := by
  rw [bytes_cons, utf8EncodeChar_ascii h]
  rfl

theorem bytes_append (cs ds : List Char) : bytes (cs ++ ds) = bytes cs ++ bytes ds := List.flatMap_append

theorem length_bytes (cs : List Char) : (bytes cs).length = byteSize cs := by
  induction cs with
  | nil => rfl
  | cons c cs ih =>
    rw [bytes_cons, List.length_append, String.length_utf8EncodeChar, byteSize, ih]

end Text

namespace Quoted
variable {q : Char}

theorem closedAt_other {quote b : UInt8} (h : b ≠ quote) (position : Nat) (bytes : List UInt8) :
    closedAt quote position (b :: bytes) = closedAt quote (position + 1) bytes := by
  rw [closedAt.eq_def]
  exact if_neg h

theorem closedAt_append {quote : UInt8} {bytes : List UInt8} (h : ∀ b ∈ bytes, b ≠ quote) (position : Nat)
    (more : List UInt8) :
    closedAt quote position (bytes ++ more) = closedAt quote (position + bytes.length) more := by
  induction bytes generalizing position with
  | nil => rfl
  | cons b bytes ih =>
    obtain ⟨hb, hbytes⟩ := List.forall_mem_cons.mp h
    rw [List.cons_append, closedAt_other hb, ih hbytes, List.length_cons, Nat.add_assoc,
      Nat.add_comm 1]

/-- The literal ends at the byte where its last character ends. -/
theorem closedAt_bytes (hq : q.toNat < 128) (position : Nat) (cs : List Char) :
    closedAt (UInt8.ofNat q.toNat) position (Text.bytes cs) = position + byteSize (split q cs).1 := by
  have hquote := Text.bytes_cons_ascii hq
  have hsize := Text.utf8Size_ascii hq
  fun_induction split q cs generalizing position with
  | case1 => rfl
  | case2 ds body rest hsplit ih =>
    rw [hquote, hquote, closedAt, if_pos rfl, if_pos rfl, ih, hsplit]
    simp only [byteSize, hsize]
    omega
  | case3 d ds hd =>
    -- the byte behind the quote belongs to another character
    have hbytes := Text.ne_of_mem_utf8EncodeChar hq hd
    obtain ⟨b, more, hmore⟩ := List.exists_cons_of_ne_nil (String.utf8EncodeChar_ne_nil (c := d))
    have hb : b ≠ UInt8.ofNat q.toNat := hbytes b (by simp [hmore])
    rw [hquote, Text.bytes_cons, hmore, List.cons_append, closedAt, if_pos rfl, if_neg hb]
    simp only [byteSize, hsize]
  | case4 =>
    rw [hquote, Text.bytes, List.flatMap_nil, closedAt, if_pos rfl]
    simp only [byteSize, hsize]
  | case5 c cs hc body rest hsplit ih =>
    rw [Text.bytes_cons, closedAt_append (Text.ne_of_mem_utf8EncodeChar hq hc),
      String.length_utf8EncodeChar, ih, hsplit]
    simp only [byteSize]
    omega

end Quoted

namespace Tape.Stands
variable {depth : Nat} {before known rest : List Char} {tape : Tape}

theorem leave {c : Char} (h : tape.Stands depth before known (c :: rest)) :
    (tape.pass c.utf8Size).Stands depth (before ++ known ++ [c]) [] rest where
  text := by simpa [Tape.pass] using h.text
  position := by simp [Tape.pass, h.position, Text.byteSize_append, byteSize, Nat.add_assoc]
  memory := List.nil_prefix
  room := h.room

theorem load (text : String) (depth : Nat) :
    (Tape.load text depth).Stands depth [] [] text.toList :=
  ⟨rfl, rfl, List.nil_prefix, Nat.le_max_left _ _⟩

end Tape.Stands

namespace Reading
variable {d : Dialect} {before known rest : List Char} {tape : Tape}

theorem startsComment_second (c : Char) (cs : List Char) :
    Lexeme.startsComment c (c :: cs)[1]?.toList = Lexeme.startsComment c cs := by
  cases cs <;> rfl

theorem literal_yields {q : Char} (hq : q.toNat < 128)
    (h : tape.Stands d.maxOperatorLength before known (q :: rest)) :
    ∃ tape', literal.Yields tape ⟨⟩ tape' ∧
      tape'.Stands d.maxOperatorLength (before ++ known ++ q :: (Quoted.split q rest).1) []
        (Quoted.split q rest).2 := by
  have hbytes : (Text.bytes tape.text).drop tape.position =
      UInt8.ofNat q.toNat :: Text.bytes rest := by
    rw [h.text, Text.bytes_append, h.position, ← Text.length_bytes, List.drop_left,
      Text.bytes_cons_ascii hq]
  have hsize := Text.utf8Size_ascii hq
  have hsplit := Quoted.split_append q rest
  have hend : byteSize (Quoted.split q rest).1 ≤ byteSize rest := by
    rw [← hsplit, Text.byteSize_append, hsplit]
    omega
  refine ⟨tape.jump (Quoted.closedAt (UInt8.ofNat q.toNat) (tape.position + 1) (Text.bytes rest)), ?_, ?_⟩
  · unfold Yields literal
    rw [(yields_get tape).bind, hbytes]
    rfl
  · refine ⟨?_, ?_, List.nil_prefix, h.room⟩
    · rw [Tape.jump, h.text]
      simp [hsplit]
    · rw [Tape.jump, Quoted.closedAt_bytes hq, h.text, h.position]
      simp only [Text.byteSize_append, byteSize, hsize, List.append_nil]
      omega

/-- The look ahead that decides about a word leaves the tape where it is. -/
theorem wordGoesOn_yields (read : List Char) {c : Char} {cs : List Char}
    (h : tape.Stands d.maxOperatorLength before known (c :: cs)) (hc : Lexeme.isSeparator c = false) :
    ∃ tape', (wordGoesOn d read c).Yields tape
        (read.isEmpty || Lexeme.continues (d.operators.map String.toList) read.reverse c cs) tape' ∧
      tape'.Stands d.maxOperatorLength (before ++ known) [] (c :: cs) := by
  have hstay : tape.Stands d.maxOperatorLength (before ++ known) [] (c :: cs) :=
    Tape.Stands.settle (by simpa using h)
  have hdigit : (c :: cs)[1]?.any Char.isDigit = cs.head?.any Char.isDigit := by
    cases cs <;> rfl
  unfold Yields wordGoesOn Lexeme.continues
  rw [List.head?_reverse, hc, if_neg Bool.false_ne_true]
  by_cases hempty : read.isEmpty = true
  · refine ⟨tape, ?_, hstay⟩
    rw [if_pos hempty, hempty]
    rfl
  rw [if_neg hempty, Bool.eq_false_iff.mpr hempty, Bool.false_or]
  by_cases hstar : (c = '*' && read.getLast? = some '.') = true
  · refine ⟨tape, ?_, hstay⟩
    rw [if_pos hstar, if_pos (by simpa using hstar)]
    rfl
  rw [if_neg hstar, if_neg (by simpa using hstar), (peekSecond_yields h).bind, startsComment_second, hdigit]
  by_cases hsign : ((c = '-' || c = '+') && Lexeme.isExponentHead read.reverse &&
      cs.head?.any Char.isDigit) = true
  · refine ⟨tape, ?_, hstay⟩
    rw [if_pos hsign, if_pos hsign]
    rfl
  rw [if_neg hsign, if_neg hsign]
  by_cases hcomment : Lexeme.startsComment c cs = true
  · refine ⟨tape, ?_, hstay⟩
    rw [if_pos hcomment, hcomment]
    rfl
  rw [if_neg hcomment, Bool.eq_false_iff.mpr hcomment]
  obtain ⟨tape₁, hoperator, htape₁⟩ := operator_yields h
  have hlength := Operator.longest_le_length (d.operators.map String.toList) (c :: cs)
  rw [hoperator.bind]
  generalize Operator.longest (d.operators.map String.toList) (c :: cs) = n at *
  by_cases hfound : 0 < n
  · -- the operator that has been found is put back
    obtain ⟨tape₂, hrewind, htape₂⟩ := rewind_yields [] htape₁
    rw [List.length_take, Nat.min_eq_left hlength] at hrewind
    refine ⟨tape₂, ?_, by simpa using htape₂⟩
    rw [if_pos hfound, beq_eq_false_iff_ne.mpr (Nat.ne_of_gt hfound)]
    dsimp only
    rw [hrewind.bind]
    rfl
  · obtain rfl : n = 0 := by omega
    exact ⟨tape₁, rfl, htape₁⟩

theorem word_takes (first read : List Char) (rounds : Nat) {c : Char} {cs : List Char}
    (h : tape.Stands d.maxOperatorLength before known (c :: cs)) (hread : before ++ known = first ++ read)
    (hc : Lexeme.isSeparator c = false)
    (hgo : (read.isEmpty ||
      Lexeme.continues (d.operators.map String.toList) read.reverse c cs) = true) :
    ∃ tape', word d (byteSize first) (rounds + 1) tape = word d (byteSize first) rounds tape' ∧
      tape'.Stands d.maxOperatorLength (first ++ (read ++ [c])) [] cs := by
  obtain ⟨tape₁, hyields, htape₁⟩ := wordGoesOn_yields read h hc
  rw [hread] at htape₁
  refine ⟨tape₁.pass c.utf8Size, ?_, by simpa using htape₁.leave⟩
  rw [word, (peek_yields h).bind]
  dsimp only [List.head?_cons]
  rw [hc, if_neg Bool.false_ne_true, (since_yields h hread).bind, hyields.bind, hgo, if_pos rfl,
    (read_yields htape₁).bind]

/-- A word of which something has been read is read to its end. -/
theorem word_yields (first read : List Char) {rounds : Nat} (hrounds : rest.length < rounds)
    (h : tape.Stands d.maxOperatorLength before known rest) (hread : before ++ known = first ++ read)
    (hne : read ≠ []) :
    ∃ tape', (word d (byteSize first) rounds).Yields tape ⟨⟩ tape' ∧
      tape'.Stands d.maxOperatorLength
        (first ++ (read ++ (Lexeme.splitWord (d.operators.map String.toList) read.reverse rest).1)) []
        (Lexeme.splitWord (d.operators.map String.toList) read.reverse rest).2 := by
  induction rounds generalizing tape before known read rest with
  | zero => exact absurd hrounds (Nat.not_lt_zero _)
  | succ rounds ih =>
    have hstay : tape.Stands d.maxOperatorLength (first ++ read) [] rest :=
      hread ▸ Tape.Stands.settle (by simpa using h)
    cases rest with
    | nil =>
      refine ⟨tape, ?_, by simpa [Lexeme.splitWord] using hstay⟩
      rw [Yields, word, (peek_yields h).bind]
      rfl
    | cons c cs =>
      rw [Lexeme.splitWord]
      by_cases hgo : Lexeme.continues (d.operators.map String.toList) read.reverse c cs = true
      · have hc : Lexeme.isSeparator c = false := by
          by_contra hc
          simp [Lexeme.continues, hc] at hgo
        obtain ⟨tape₁, htakes, htape₁⟩ := word_takes first read rounds h hread hc (by rw [hgo, Bool.or_true])
        obtain ⟨tape', hyields, htape'⟩ := ih (read ++ [c]) (Nat.lt_of_succ_lt_succ hrounds) htape₁
          (by simp) (by simp)
        refine ⟨tape', htakes.trans hyields, ?_⟩
        rw [if_pos hgo]
        simpa using htape'
      · rw [if_neg hgo]
        by_cases hc : Lexeme.isSeparator c = true
        · refine ⟨tape, ?_, by simpa using hstay⟩
          rw [Yields, word, (peek_yields h).bind]
          dsimp only [List.head?_cons]
          rw [if_pos hc]
          rfl
        · obtain ⟨tape₁, hyields, htape₁⟩ := wordGoesOn_yields read h (by simpa using hc)
          have hempty : read.isEmpty = false := by simpa using hne
          refine ⟨tape₁, ?_, by simpa [hread] using htape₁⟩
          rw [Yields, word, (peek_yields h).bind]
          dsimp only [List.head?_cons]
          rw [if_neg hc, (since_yields h hread).bind, hyields.bind, hempty, Bool.false_or, if_neg hgo]
          rfl

theorem shape_yields {c : Char} {cs : List Char} (h : tape.Stands d.maxOperatorLength before known (c :: cs))
    (hc : Text.isWhitespace c = false) :
    ∃ tape', (shape d c).Yields tape (Lexeme.cut (d.operators.map String.toList) c cs).1 tape' ∧
      tape'.Stands d.maxOperatorLength
        (before ++ known ++ c :: (Lexeme.cut (d.operators.map String.toList) c cs).2.1) []
        (Lexeme.cut (d.operators.map String.toList) c cs).2.2 := by
  unfold Yields shape Lexeme.cut
  by_cases hquote : Lexeme.isQuote c = true
  · have hascii : c.toNat < 128 := by
      rcases (by simpa [Lexeme.isQuote] using hquote : c = '\x27' ∨ c = '"') with rfl | rfl <;> decide
    obtain ⟨tape', hyields, htape'⟩ := literal_yields hascii h
    refine ⟨tape', ?_, ?_⟩
    · rw [if_pos hquote, if_pos hquote, hyields.bind]
      rfl
    · rw [if_pos hquote]
      exact htape'
  rw [if_neg hquote, if_neg hquote]
  cases hmark : Lexeme.markKind? c with
  | some kind =>
    refine ⟨tape.pass c.utf8Size, ?_, h.leave⟩
    dsimp only
    rw [(read_yields h).bind]
    rfl
  | none =>
    obtain ⟨tape₁, hoperator, htape₁⟩ := operator_yields h
    dsimp only
    rw [hoperator.bind]
    cases hlongest : Operator.longest (d.operators.map String.toList) (c :: cs) with
    | succ n =>
      rw [hlongest] at htape₁
      exact ⟨tape₁, rfl, Tape.Stands.settle (by simpa using htape₁)⟩
    | zero =>
      rw [hlongest] at htape₁
      have hseparator : Lexeme.isSeparator c = false := by
        simp [Lexeme.isSeparator, hc, hquote, hmark]
      have hfewer : cs.length < tape₁.text.length := by
        rw [htape₁.text, List.length_append]
        exact Nat.lt_add_left _ (Nat.lt_succ_self _)
      obtain ⟨tape₂, htakes, htape₂⟩ := word_takes (before ++ known) [] tape₁.text.length htape₁ (by simp)
        hseparator rfl
      obtain ⟨tape₃, hyields, htape₃⟩ := word_yields (before ++ known) [c] hfewer htape₂ (by simp) (by simp)
      have hword : (word d (byteSize (before ++ known)) (tape₁.text.length + 1)).Yields tape₁ ⟨⟩ tape₃ :=
        htakes.trans hyields
      refine ⟨tape₃, ?_, by simpa using htape₃⟩
      rw [if_neg (Nat.lt_irrefl 0)]
      dsimp only
      rw [(yields_get tape₁).bind, htape₁.position, List.take_zero, List.append_nil, hword.bind]
      rfl

/-- The work comes to an end with the result, or fails at the comment. -/
def Gives {α : Type} (m : Reading α) (tape : Tape) : Except CommentFound α → Prop
  | .ok a => ∃ tape', m.Yields tape a tape'
  | .error e => m tape = some (.error ⟨e.position, .comment⟩)

theorem Gives.of_eq {α : Type} {m m' : Reading α} {tape tape' : Tape} {r : Except CommentFound α}
    (hr : m'.Gives tape' r) (h : m tape = m' tape') : m.Gives tape r := by
  cases r with
  | error e => exact h.trans hr
  | ok a => exact hr.imp fun _ => h.trans

theorem Gives.map {α β : Type} {m : Reading α} {r : Except CommentFound α} (h : m.Gives tape r)
    (f : α → β) : (m >>= fun a => pure (f a)).Gives tape (r.map f) := by
  cases r with
  | error e =>
    have hm : m tape = some (.error ⟨e.position, .comment⟩) := h
    simp only [Gives, Except.map, Bind.bind, StateT.bind, ExceptT.bind, ExceptT.mk, hm]
    rfl
  | ok a =>
    obtain ⟨tape', hyields⟩ := h
    exact ⟨tape', hyields.bind⟩

/-- The tape gives what is cut off the front of the text that is left. -/
theorem lexemes_give {rounds : Nat} (hrounds : rest.length < rounds)
    (h : tape.Stands d.maxOperatorLength before known rest) (afterNewline spaced : Bool) :
    (lexemes d rounds afterNewline spaced).Gives tape
      (Lexeme.scanFrom (d.operators.map String.toList) (byteSize (before ++ known)) afterNewline spaced
        rest) := by
  induction rounds generalizing tape before known rest afterNewline spaced with
  | zero => exact absurd hrounds (Nat.not_lt_zero _)
  | succ rounds ih =>
    have hstart := (congrFun (lexemes.eq_2 d afterNewline spaced rounds) tape).trans (peek_yields h).bind
    cases rest with
    | nil =>
      rw [Scrap.scanFrom_nil]
      exact ⟨tape, hstart⟩
    | cons c cs =>
      have hfewer : cs.length < rounds := Nat.lt_of_succ_lt_succ hrounds
      dsimp only [List.head?_cons] at hstart
      by_cases hwhite : Text.isWhitespace c = true
      · rw [if_pos hwhite, (read_yields h).bind] at hstart
        have hmore := ih hfewer h.leave (afterNewline || c = '\n') true
        rw [List.append_nil, Text.byteSize_append (before ++ known)] at hmore
        rw [Scrap.scanFrom_white hwhite]
        simpa [byteSize] using hmore.of_eq hstart
      rw [if_neg hwhite, (peekSecond_yields h).bind] at hstart
      rw [Lexeme.scanFrom.eq_def]
      dsimp only
      rw [if_neg hwhite]
      by_cases hcomment : Lexeme.startsComment c cs = true
      · rw [if_pos hcomment, ← h.position]
        rw [startsComment_second, if_pos hcomment] at hstart
        exact hstart
      rw [if_neg hcomment]
      rw [startsComment_second, if_neg hcomment] at hstart
      have hle := Lexeme.cut_length_le (d.operators.map String.toList) c cs
      obtain ⟨tape₁, hshape, htape₁⟩ := shape_yields h (by simpa using hwhite)
      have hmore := ih (Nat.lt_of_le_of_lt hle hfewer) htape₁ false false
      rw [List.append_nil, Text.byteSize_append (before ++ known)] at hmore
      rw [(yields_get tape).bind, hshape.bind, h.position,
        (since_yields htape₁ (List.append_nil _)).bind] at hstart
      cases hscan : Lexeme.scanFrom (d.operators.map String.toList)
          (byteSize (before ++ known) +
            byteSize (c :: (Lexeme.cut (d.operators.map String.toList) c cs).2.1))
          false false (Lexeme.cut (d.operators.map String.toList) c cs).2.2 <;>
        exact ((hscan ▸ hmore).map _).of_eq hstart

end Reading

namespace Lexeme
variable {ops : List (List Char)} {position : Nat} {afterNewline spaced : Bool} {cs : List Char}
  {e : CommentFound}

theorem startsComment_iff {c : Char} : startsComment c cs = true ↔
    ['-', '-'] <+: c :: cs ∨ ['/', '*'] <+: c :: cs := by
  have hpair : ∀ a b, [a, b] <+: c :: cs ↔ c = a ∧ cs.head? = some b := by
    intro a b
    cases cs <;> simp [eq_comm]
  simp [startsComment, hpair]

/-- Where scanning fails, a comment begins. -/
theorem comment_of_scanFrom (h : scanFrom ops position afterNewline spaced cs = .error e) :
    ∃ before after, cs = before ++ after ∧ e.position = position + byteSize before ∧
      (['-', '-'] <+: after ∨ ['/', '*'] <+: after) := by
  fun_induction scanFrom ops position afterNewline spaced cs with
  | case1 => cases h
  | case2 position afterNewline spaced c cs hwhite ih =>
    obtain ⟨before, after, rfl, hposition, hopens⟩ := ih h
    exact ⟨c :: before, after, rfl, by rw [hposition, byteSize, Nat.add_assoc], hopens⟩
  | case3 position afterNewline spaced c cs hwhite hcomment =>
    cases h
    exact ⟨[], c :: cs, rfl, rfl, startsComment_iff.mp hcomment⟩
  | case4 position afterNewline spaced c cs hwhite hcomment piece e' hscan ih =>
    cases h
    obtain ⟨before, after, hsplit, hposition, hopens⟩ := ih hscan
    refine ⟨c :: piece.2.1 ++ before, after, ?_, ?_, hopens⟩
    · rw [List.append_assoc, ← hsplit, List.cons_append, cut_append]
    · rw [hposition, Text.byteSize_append, Nat.add_assoc]
  | case5 => cases h

end Lexeme

/-- Reading a text from a tape always comes to an end. It gives the tokens of the text, or it fails at a
character where a comment begins; no character is put back that is not remembered, and nothing is read or
cut out inside a character. -/
theorem tokenizeTape_stops_at_comments (d : Dialect) (text : String) :
    (∃ tokens, tokenizeTape d text = some (.ok tokens) ∧ tokenize d text = .ok tokens) ∨
      ∃ before after, text.toList = before ++ after ∧
        (['-', '-'] <+: after ∨ ['/', '*'] <+: after) ∧
        tokenizeTape d text = some (.error ⟨byteSize before, .comment⟩) ∧
        tokenize d text = .error ⟨byteSize before⟩ := by
  have hrounds : text.toList.length < text.length + 1 := Nat.lt_succ_self _
  have hgives := Reading.lexemes_give hrounds (Tape.Stands.load text d.maxOperatorLength) false true
  have hscan : Lexeme.scan d.operators text =
      Lexeme.scanFrom (d.operators.map String.toList) (byteSize ([] ++ [])) false true text.toList := rfl
  unfold tokenizeTape tokenize
  rw [hscan]
  cases hresult : Lexeme.scanFrom (d.operators.map String.toList) (byteSize ([] ++ [])) false true
      text.toList with
  | ok lexemes =>
    rw [hresult] at hgives
    obtain ⟨tape', hyields⟩ := hgives
    refine Or.inl ⟨_, ?_, rfl⟩
    rw [StateT.run, hyields]
  | error e =>
    rw [hresult] at hgives
    obtain ⟨before, after, hsplit, hposition, hopens⟩ := Lexeme.comment_of_scanFrom hresult
    obtain rfl : e = ⟨byteSize before⟩ := by
      cases e
      simpa [byteSize] using hposition
    refine Or.inr ⟨before, after, hsplit, hopens, ?_, rfl⟩
    rw [StateT.run, hgives]

end SqlLayout
