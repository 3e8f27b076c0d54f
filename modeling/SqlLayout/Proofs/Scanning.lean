import Mathlib.Data.List.Chain
import SqlLayout.Proofs.Cutting

/-! A text as a list of scraps, which are lexemes with the white space before them. A text is scanned
into the lexemes of a list of scraps exactly when it is made of these scraps and each of them stands
where it is, that is, is cut off whole before what follows. Neighbours that keep clear of one another
stand in any company. -/

namespace SqlLayout
set_option autoImplicit false

/-- A lexeme with the white space before it. -/
structure Scrap where
  gap : List Char
  shape : Shape
  text : List Char

namespace Lexeme

/-- The text is cut off as one lexeme when `rest` follows it. -/
def Stands (ops : List (List Char)) (shape : Shape) (text rest : List Char) : Prop :=
  ∃ c word, text = c :: word ∧ Text.isWhitespace c = false ∧
    startsComment c (word ++ rest) = false ∧ cut ops c (word ++ rest) = (shape, word, rest)

/-- The literal ends with its closing quote. -/
def isClosed : List Char → Bool
  | [] => false
  | q :: body => Quoted.closes q body

/-- Word characters, of which the first is a letter. -/
def isPlainWord (text : List Char) : Bool :=
  text.head?.any Char.isAlpha && text.all Text.isWordChar

end Lexeme

namespace Scrap
open Lexeme

/-- The text of a list of scraps. -/
def flat (scraps : List Scrap) : List Char := scraps.flatMap fun s => s.gap ++ s.text

@[simp] theorem flat_nil : flat [] = [] := rfl

@[simp] theorem flat_cons (s : Scrap) (scraps : List Scrap) :
    flat (s :: scraps) = s.gap ++ s.text ++ flat scraps := by
  simp [flat]

theorem flat_append (scraps more : List Scrap) : flat (scraps ++ more) = flat scraps ++ flat more := by
  simp [flat]

/-- The lexemes of a list of scraps, when what is known of the white space before the first of them
is put in front. -/
def lexemes (afterNewline spaced : Bool) : List Scrap → List Lexeme
  | [] => []
  | s :: scraps =>
    ⟨s.shape, String.ofList s.text, afterNewline || s.gap.contains '\n', spaced || !s.gap.isEmpty⟩ ::
      lexemes false false scraps

def isBlank (text : List Char) : Prop := ∀ c ∈ text, Text.isWhitespace c = true

theorem isBlank_of_spaces {gap : List Char} (h : ∀ c ∈ gap, c = ' ' ∨ c = '\n') : isBlank gap := by
  intro c hc
  rcases h c hc with rfl | rfl <;> rfl

/-- Every scrap stands before what follows it, up to a blank tail. -/
inductive Legible (ops : List (List Char)) : List Scrap → List Char → Prop
  | nil {tail : List Char} (h : isBlank tail) : Legible ops [] tail
  | cons {s : Scrap} {scraps : List Scrap} {tail : List Char} (hgap : isBlank s.gap)
      (hstands : Stands ops s.shape s.text (flat scraps ++ tail)) (h : Legible ops scraps tail) :
      Legible ops (s :: scraps) tail

theorem Legible.of_append {ops : List (List Char)} {scraps more : List Scrap} {tail : List Char}
    (h : Legible ops (scraps ++ more) tail) : Legible ops more tail := by
  induction scraps with
  | nil => exact h
  | cons s scraps ih =>
    cases h with
    | cons _ _ h => exact ih h

section Scan
variable {ops : List (List Char)}

theorem scanFrom_nil (position : Nat) (afterNewline spaced : Bool) :
    scanFrom ops position afterNewline spaced [] = .ok [] := by
  rw [scanFrom.eq_def]

theorem scanFrom_white {c : Char} (hc : Text.isWhitespace c = true) (position : Nat)
    (afterNewline spaced : Bool) (cs : List Char) :
    scanFrom ops position afterNewline spaced (c :: cs) =
      scanFrom ops (position + c.utf8Size) (afterNewline || c = '\n') true cs := by
  rw [scanFrom.eq_def]
  exact if_pos hc

theorem scanFrom_blank {gap : List Char} (hgap : isBlank gap) (position : Nat)
    (afterNewline spaced : Bool) (cs : List Char) :
    ∃ p, scanFrom ops position afterNewline spaced (gap ++ cs) =
      scanFrom ops p (afterNewline || gap.contains '\n') (spaced || !gap.isEmpty) cs := by
  induction gap generalizing position afterNewline spaced with
  | nil => exact ⟨position, by simp⟩
  | cons c gap ih =>
    have hc : Text.isWhitespace c = true := hgap c List.mem_cons_self
    obtain ⟨p, hp⟩ := ih (fun d hd => hgap d (List.mem_cons_of_mem c hd))
      (position + c.utf8Size) (afterNewline || c = '\n') true
    have hnewline : ((afterNewline || c = '\n') || gap.contains '\n') =
        (afterNewline || (c :: gap).contains '\n') := by
      by_cases hnl : c = '\n' <;> simp [hnl, eq_comm]
    refine ⟨p, ?_⟩
    rw [hnewline] at hp
    exact (scanFrom_white hc position afterNewline spaced _).trans (by simpa using hp)

theorem scanFrom_stands {text rest : List Char} {shape : Shape}
    (h : Stands ops shape text rest) (position : Nat) (afterNewline spaced : Bool) :
    ∃ p, scanFrom ops position afterNewline spaced (text ++ rest) =
      (scanFrom ops p false false rest).map
        (⟨shape, String.ofList text, afterNewline, spaced⟩ :: ·) := by
  obtain ⟨c, word, rfl, hwhite, hcomment, hcut⟩ := h
  refine ⟨position + byteSize (c :: word), ?_⟩
  rw [List.cons_append, scanFrom.eq_def]
  simp only [hwhite, hcomment, hcut, Bool.false_eq_true, if_false]
  cases scanFrom ops (position + byteSize (c :: word)) false false rest <;> rfl

theorem Legible.scanFrom {scraps : List Scrap} {tail : List Char}
    (h : Legible ops scraps tail) (position : Nat) (afterNewline spaced : Bool) :
    Lexeme.scanFrom ops position afterNewline spaced (flat scraps ++ tail) =
      .ok (lexemes afterNewline spaced scraps) := by
  induction h generalizing position afterNewline spaced with
  | nil hblank =>
    obtain ⟨p, hp⟩ := @scanFrom_blank ops _ hblank position afterNewline spaced []
    rw [List.append_nil] at hp
    rw [flat_nil, List.nil_append, hp, scanFrom_nil]
    rfl
  | @cons s scraps tail hgap hstands _ ih =>
    obtain ⟨p, hp⟩ := @scanFrom_blank ops _ hgap position afterNewline spaced
      (s.text ++ (flat scraps ++ tail))
    obtain ⟨q, hq⟩ := scanFrom_stands hstands p (afterNewline || s.gap.contains '\n')
      (spaced || !s.gap.isEmpty)
    rw [flat_cons, List.append_assoc, List.append_assoc, hp, hq, ih q false false]
    rfl

theorem exists_legible {position : Nat} {afterNewline spaced : Bool} {cs : List Char}
    {ls : List Lexeme} (h : Lexeme.scanFrom ops position afterNewline spaced cs = .ok ls) :
    ∃ scraps tail, Legible ops scraps tail ∧ cs = flat scraps ++ tail ∧
      ls = lexemes afterNewline spaced scraps := by
  fun_induction Lexeme.scanFrom ops position afterNewline spaced cs generalizing ls with
  | case1 =>
    cases h
    exact ⟨[], [], .nil (by simp [isBlank]), rfl, rfl⟩
  | case2 position afterNewline spaced c cs hc ih =>
    obtain ⟨scraps, tail, hlegible, rfl, rfl⟩ := ih h
    cases hlegible with
    | nil hblank =>
      refine ⟨[], c :: tail, .nil ?_, rfl, rfl⟩
      intro d hd
      rcases List.mem_cons.mp hd with rfl | hd
      · exact hc
      · exact hblank d hd
    | @cons s scraps _ hgap hstands hmore =>
      refine ⟨{ s with gap := c :: s.gap } :: scraps, tail, .cons ?_ hstands hmore, by simp, ?_⟩
      · intro d hd
        rcases List.mem_cons.mp hd with rfl | hd
        · exact hc
        · exact hgap d hd
      · by_cases hnl : c = '\n' <;> simp [lexemes, hnl, eq_comm]
  | case3 => cases h
  | case4 => cases h
  | case5 position afterNewline spaced c cs hc hcomment piece more hmore =>
    rename_i ih
    cases h
    obtain ⟨scraps, tail, hlegible, hrest, rfl⟩ := ih hmore
    have happend := cut_append ops c cs
    refine ⟨⟨[], piece.1, c :: piece.2.1⟩ :: scraps, tail, .cons ?_ ?_ hlegible, ?_, ?_⟩
    · simp [isBlank]
    · refine ⟨c, piece.2.1, rfl, by simpa using hc, ?_, ?_⟩
      · rw [← hrest, happend]
        simpa using hcomment
      · rw [← hrest, happend]
    · simp only [flat_cons, List.nil_append, List.append_assoc, List.cons_append]
      rw [← hrest, happend]
    · simp [lexemes]

/-- A text is scanned into the lexemes of the scraps that it is made of, and into no others. -/
theorem scan_iff {operators : List String} {text : String} {ls : List Lexeme} :
    Lexeme.scan operators text = .ok ls ↔
      ∃ scraps tail, Legible (operators.map String.toList) scraps tail ∧
        text.toList = flat scraps ++ tail ∧ ls = lexemes false true scraps := by
  constructor
  · exact exists_legible
  · rintro ⟨scraps, tail, hlegible, htext, rfl⟩
    unfold Lexeme.scan
    rw [htext]
    exact hlegible.scanFrom 0 false true

end Scan

end Scrap

namespace Lexeme
variable {ops : List (List Char)}

theorem Stands.ne_nil {shape : Shape} {text rest : List Char} (h : Stands ops shape text rest) :
    text ≠ [] := by
  obtain ⟨c, word, rfl, _⟩ := h
  exact List.cons_ne_nil c word

theorem Stands.alone (tame : Operator.Tame ops) {shape : Shape} {text rest : List Char}
    (h : Stands ops shape text rest) : Stands ops shape text [] := by
  obtain ⟨c, word, rfl, hwhite, hcomment, hcut⟩ := h
  refine ⟨c, word, rfl, hwhite, ?_, ?_⟩
  · rw [List.append_nil]
    cases word with
    | nil => simp [startsComment]
    | cons d ds => exact hcomment
  · rw [List.append_nil]
    exact cut_alone tame hcut

theorem Stands.extend (tame : Operator.Tame ops) {shape : Shape} {text rest : List Char}
    (h : Stands ops shape text []) (hclean : Clean text rest)
    (hquoted : shape = .quoted → isClosed text = true ∧ ∀ q ∈ text.head?, rest.head? ≠ some q) :
    Stands ops shape text rest := by
  obtain ⟨c, word, rfl, hwhite, hcomment, hcut⟩ := h
  rw [List.append_nil] at hcomment hcut
  refine ⟨c, word, rfl, hwhite, ?_, ?_⟩
  · rw [startsComment_extend hclean, hcomment]
  · simpa using cut_extend tame hcut hclean fun hq => ⟨(hquoted hq).1, fun _ => (hquoted hq).2 c rfl⟩

theorem Stands.mem_operators {text rest : List Char} (h : Stands ops .operator text rest) :
    text ∈ ops := by
  obtain ⟨c, word, rfl, -, -, hcut⟩ := h
  rcases cut_cases hcut with ⟨_, h, _⟩ | ⟨_, _, _, h, _⟩ | ⟨_, _, _, hlongest, _⟩ | ⟨_, _, h, _⟩
  · cases h
  · cases h
  · have hmem := @Operator.take_longest_mem ops (c :: (word ++ rest)) (by omega)
    simpa [hlongest] using hmem
  · cases h

theorem Stands.not_mem_operators {text rest : List Char} (h : Stands ops .word text rest) :
    text ∉ ops := by
  obtain ⟨c, word, rfl, -, -, hcut⟩ := h
  intro hmem
  rcases cut_cases hcut with ⟨_, h, _⟩ | ⟨_, _, _, h, _⟩ | ⟨_, _, h, _⟩ | ⟨_, _, _, hzero, _⟩
  · cases h
  · cases h
  · cases h
  · have hnil := Operator.longest_eq_zero_iff.mp hzero _ hmem ⟨rest, rfl⟩
    cases hnil

theorem Stands.getLast_quoted {text : List Char} (h : Stands ops .quoted text [])
    (hclosed : isClosed text = true) : ∃ q, text.getLast? = some q ∧ isQuote q = true := by
  obtain ⟨c, word, rfl, -, -, hcut⟩ := h
  rw [List.append_nil] at hcut
  rcases cut_cases hcut with ⟨hc, _, hsplit⟩ | ⟨_, _, _, h, _⟩ | ⟨_, _, h, _⟩ | ⟨_, _, h, _⟩
  · refine ⟨c, ?_, hc⟩
    rw [List.getLast?_cons, Quoted.getLast_of_closes hclosed hsplit]
    rfl
  · cases h
  · cases h
  · cases h

/-- A literal that is not closed has nothing behind it. -/
theorem Stands.closed {text rest : List Char} (h : Stands ops .quoted text rest) (hrest : rest ≠ []) :
    isClosed text = true := by
  obtain ⟨c, word, rfl, -, -, hcut⟩ := h
  rcases cut_cases hcut with ⟨hc, _, hsplit⟩ | ⟨_, _, _, h, _⟩ | ⟨_, _, h, _⟩ | ⟨_, _, h, _⟩
  · cases hclosed : Quoted.closes c (word ++ rest) with
    | true =>
      have hbody := (Quoted.split_body c (word ++ rest)).2
      rw [hsplit] at hbody
      exact hbody.trans hclosed
    | false =>
      have hopen := @Quoted.split_open c (word ++ rest) [] hclosed (by simp)
      rw [List.append_nil, hsplit] at hopen
      exact absurd (Prod.mk.inj hopen).2 hrest
  · cases h
  · cases h
  · cases h

theorem Stands.isPunctuation {kind : TokenKind} {text rest : List Char}
    (h : Stands ops (.mark kind) text rest) : kind.isPunctuation = true ∧ kind ≠ .eof := by
  obtain ⟨c, word, rfl, -, -, hcut⟩ := h
  rcases cut_cases hcut with ⟨_, h, _⟩ | ⟨_, k, hmark, hk, _⟩ | ⟨_, _, h, _⟩ | ⟨_, _, h, _⟩
  · cases h
  · cases hk
    unfold markKind? at hmark
    split at hmark <;> cases hmark <;> exact ⟨rfl, by simp⟩
  · cases h
  · cases h

theorem Stands.mark {kind : TokenKind} {text rest : List Char}
    (h : Stands ops (.mark kind) text []) : Stands ops (.mark kind) text rest := by
  obtain ⟨c, word, rfl, hwhite, -, hcut⟩ := h
  rcases cut_cases hcut with ⟨_, h, _⟩ | ⟨hc, k, hmark, hk, rfl, -⟩ | ⟨_, _, h, _⟩ | ⟨_, _, h, _⟩
  · cases h
  · cases hk
    refine ⟨c, [], rfl, hwhite, ?_, cut_mark hc hmark rest⟩
    have hne : c ≠ '-' ∧ c ≠ '/' := by
      constructor <;> · rintro rfl; simp [markKind?] at hmark
    simp [startsComment, hne.1, hne.2]
  · cases h
  · cases h

theorem Stands.cast (tame : Operator.Tame ops) (rest : List Char) :
    Stands ops .operator [':', ':'] rest := by
  refine ⟨':', [':'], rfl, rfl, by simp [startsComment], ?_⟩
  apply cut_operator rfl rfl
  have hlower := Operator.length_le_longest tame.cast
    (show [':', ':'] <+: ':' :: ([':'] ++ rest) from ⟨rest, rfl⟩)
  have hmem := @Operator.take_longest_mem ops (':' :: ([':'] ++ rest)) (by
    simp only [List.length_cons, List.length_nil] at hlower
    omega)
  -- a longer operator would hold a second colon, and only the cast does
  have hcast := tame.colon _ hmem
  generalize hn : Operator.longest ops (':' :: ([':'] ++ rest)) = n at *
  obtain ⟨n, rfl⟩ : ∃ m, n = m + 2 := Nat.exists_eq_add_of_le' hlower
  have hnil : rest.take n = [] := by simpa using hcast (by simp)
  have hlen := congrArg List.length hnil
  have hle := Operator.longest_le_length ops (':' :: ([':'] ++ rest))
  rw [hn] at hle
  simp only [List.length_take, List.length_nil, List.length_cons, List.length_append] at hlen hle ⊢
  omega

/-- What ends a plain word: nothing, a separator, or an operator. -/
def Stops (ops : List (List Char)) (rest : List Char) : Prop :=
  rest = [] ∨ (∃ c cs, rest = c :: cs ∧ isSeparator c = true) ∨ Operator.longest ops rest ≠ 0

theorem isExponentHead_eq_false {backwards : List Char}
    (halpha : backwards.getLast?.any Char.isAlpha = true) : isExponentHead backwards = false := by
  cases backwards with
  | nil => rfl
  | cons e mantissa =>
    unfold isExponentHead
    cases hlast : mantissa.getLast? with
    | none => simp [List.getLast?_eq_none_iff.mp hlast]
    | some a =>
      have ha : a.isAlpha = true := by simpa [List.getLast?_cons, hlast] using halpha
      have hmem : a ∈ mantissa := List.mem_of_getLast? hlast
      have hnot : (a.isDigit || a = '.') = false := by
        have hword : Text.isWordChar a = true := by simp [Text.isWordChar, Char.isAlphanum, ha]
        have hcode := Text.forall_codes (p := fun c => !c.isAlpha || !(c.isDigit || c = '.'))
          (by decide +kernel) (Text.ascii_of_isWordChar hword)
        simpa [ha] using hcode
      have hall : mantissa.all (fun c => c.isDigit || c = '.') = false := by
        rw [List.all_eq_false]
        exact ⟨a, hmem, by simpa using hnot⟩
      simp [hall]

theorem splitWord_plain (tame : Operator.Tame ops) {backwards word rest : List Char}
    (hbackwards : backwards.all Text.isWordChar = true)
    (halpha : backwards.getLast?.any Char.isAlpha = true)
    (hword : word.all Text.isWordChar = true) (hrest : Stops ops rest) :
    splitWord ops backwards (word ++ rest) = (word, rest) := by
  induction word generalizing backwards with
  | nil =>
    rcases hrest with rfl | ⟨c, cs, rfl, hc⟩ | hop
    · rfl
    · simp [splitWord, continues, hc]
    · cases rest with
      | nil => rfl
      | cons c cs =>
        have hpoint : backwards.head? ≠ some '.' := by
          intro hhead
          have hmem : '.' ∈ backwards := List.mem_of_head? hhead
          have hbad := List.all_eq_true.mp hbackwards '.' hmem
          revert hbad
          decide
        have hstop : continues ops backwards c cs = false := by
          unfold continues
          simp [hpoint, isExponentHead_eq_false halpha, hop]
        simp [splitWord, hstop]
  | cons c word ih =>
    have hc : Text.isWordChar c = true := List.all_eq_true.mp hword c List.mem_cons_self
    rw [List.cons_append, splitWord, if_pos (continues_word_char tame backwards _ hc), ih]
    · simpa [hc] using hbackwards
    · cases backwards with
      | nil => simp at halpha
      | cons b bs => simpa [List.getLast?_cons_cons] using halpha
    · simp_all

theorem Stands.plain (tame : Operator.Tame ops) {text rest : List Char}
    (hplain : isPlainWord text = true) (hrest : Stops ops rest) : Stands ops .word text rest := by
  cases text with
  | nil => simp [isPlainWord] at hplain
  | cons c word =>
    obtain ⟨halpha, hc, hword⟩ : c.isAlpha = true ∧ Text.isWordChar c = true ∧
        word.all Text.isWordChar = true := by simpa [isPlainWord] using hplain
    obtain ⟨hsep, hminus, hslash, _⟩ := isWordChar_plain hc
    obtain ⟨⟨hwhite, hquote⟩, hmark⟩ : (Text.isWhitespace c = false ∧ isQuote c = false) ∧
        markKind? c = none := by simpa [isSeparator] using hsep
    refine ⟨c, word, rfl, hwhite, by simp [startsComment, hminus, hslash], ?_⟩
    apply cut_word hquote hmark (longest_word_char tame _ hc)
    exact splitWord_plain tame (by simpa using hc) (by simpa using halpha) hword hrest

end Lexeme

namespace Scrap
open Lexeme
variable {ops : List (List Char)}

/-- Two scraps may stand side by side with nothing between them. -/
def Touches (a b : Scrap) : Prop :=
  (∃ kind, a.shape = .mark kind) ∨ (a.shape = .operator ∧ a.text = [':', ':']) ∨
  (∃ kind, b.shape = .mark kind ∧ kind ≠ .openBracket) ∨
  (b.shape = .operator ∧ b.text = [':', ':'] ∧ a.text.getLast? ≠ some ':') ∨
  (a.shape ≠ .quoted ∧ b.shape = .quoted) ∨
  (a.shape = .word ∧ isPlainWord a.text = true ∧ b.shape = .operator)

/-- The scrap `b` may follow `a`. -/
def Meets (a b : Scrap) : Prop :=
  (a.shape = .quoted → isClosed a.text = true) ∧ (b.gap = [] → a.Touches b)

theorem stands_head {shape : Shape} {text rest : List Char} (h : Stands ops shape text rest) :
    ∃ c cs, text = c :: cs ∧ (shape = .quoted → isQuote c = true) ∧
      (∀ kind, shape = .mark kind → isQuote c = false ∧ isSeparator c = true) := by
  obtain ⟨c, word, rfl, _, _, hcut⟩ := h
  refine ⟨c, word, rfl, ?_, ?_⟩
  · rintro rfl
    rcases cut_cases hcut with ⟨hc, _⟩ | ⟨_, _, _, h, _⟩ | ⟨_, _, h, _⟩ | ⟨_, _, h, _⟩
    · exact hc
    · cases h
    · cases h
    · cases h
  · rintro kind rfl
    rcases cut_cases hcut with ⟨_, h, _⟩ | ⟨hc, k, hmark, _⟩ | ⟨_, _, h, _⟩ | ⟨_, _, h, _⟩
    · cases h
    · exact ⟨hc, by simp [isSeparator, hmark]⟩
    · cases h
    · cases h

theorem isQuote_of_isWhitespace {c : Char} (h : Text.isWhitespace c = true) :
    isQuote c = false := by
  rw [Bool.eq_false_iff]
  intro hquote
  simp only [isQuote, Bool.or_eq_true, decide_eq_true_eq] at hquote
  rcases hquote with rfl | rfl <;> revert h <;> decide

theorem stands_blank (tame : Operator.Tame ops) {shape : Shape} {text gap rest : List Char}
    (h : Stands ops shape text []) (hgap : isBlank gap) (hne : gap ≠ [])
    (hclosed : shape = .quoted → isClosed text = true) :
    Stands ops shape text (gap ++ rest) := by
  obtain ⟨c, gap, rfl⟩ := List.exists_cons_of_ne_nil hne
  have hc : Text.isWhitespace c = true := hgap c List.mem_cons_self
  apply h.extend tame
  · exact Clean.of_separator (by simp [isSeparator, hc])
  · intro hquoted
    refine ⟨hclosed hquoted, ?_⟩
    intro q hq hhead
    obtain ⟨d, ds, rfl, hquote, -⟩ := stands_head h
    obtain rfl : d = q := by simpa using hq
    obtain rfl : c = d := by simpa using hhead
    simp [isQuote_of_isWhitespace hc] at hquote
    exact hquote hquoted

/-- A scrap stands before the scraps that it meets. -/
theorem Meets.stands (tame : Operator.Tame ops) {a b : Scrap} (h : a.Meets b)
    (ha : Stands ops a.shape a.text []) (hb : Stands ops b.shape b.text [])
    (hgap : isBlank b.gap) (more : List Char) :
    Stands ops a.shape a.text (b.gap ++ b.text ++ more) := by
  obtain ⟨hclosed, htouch⟩ := h
  by_cases hnil : b.gap = []
  · obtain ⟨c, cs, hbtext, hbquote, hbmark⟩ := stands_head hb
    rw [hnil, List.nil_append]
    -- an opening quote is not the quote of a literal before it when a mark or a cast stands there
    have hextend : Clean a.text (b.text ++ more) → (a.shape = .quoted → isQuote c = false) →
        Stands ops a.shape a.text (b.text ++ more) := by
      intro hclean hc
      apply ha.extend tame hclean
      intro hquoted
      refine ⟨hclosed hquoted, ?_⟩
      intro q hq hhead
      obtain ⟨d, ds, hatext, haquote, -⟩ := stands_head ha
      obtain rfl : d = q := by simpa [hatext] using hq
      obtain rfl : c = d := by simpa [hbtext] using hhead
      rw [hc hquoted] at haquote
      cases haquote hquoted
    rcases htouch hnil with ⟨kind, hmark⟩ | ⟨hop, hcast⟩ | ⟨kind, hmark, -⟩ | ⟨hop, hcast, hlast⟩ |
      ⟨hword, hquoted⟩ | ⟨hword, hplain, hop⟩
    · rw [hmark] at ha ⊢
      exact ha.mark
    · rw [hop, hcast]
      exact Stands.cast tame _
    · apply hextend
      · rw [hbtext]
        exact Clean.of_separator (hbmark kind hmark).2
      · exact fun _ => (hbmark kind hmark).1
    · apply hextend
      · rw [hcast]
        exact Or.inr (Or.inr ⟨more, rfl, hlast⟩)
      · intro _
        obtain rfl : ':' = c := by rw [hcast] at hbtext; exact (List.cons.inj hbtext).1
        rfl
    · apply hextend
      · rw [hbtext]
        exact Clean.of_separator (by simp [isSeparator, hbquote hquoted])
      · exact fun h => absurd h hword
    · rw [hword]
      apply Stands.plain tame hplain
      refine Or.inr (Or.inr ?_)
      rw [hop] at hb
      have hle := Operator.length_le_longest hb.mem_operators (List.prefix_append b.text more)
      have hpos := List.length_pos_iff.mpr hb.ne_nil
      omega
  · rw [List.append_assoc]
    exact stands_blank tame ha hgap hnil hclosed

/-- Scraps that stand alone and meet one another make a legible text. Behind the last of them may
be white space, unless it is a literal without end. -/
theorem legible_of_meets (tame : Operator.Tame ops) {scraps : List Scrap} {tail : List Char}
    (hgaps : ∀ s ∈ scraps, isBlank s.gap) (halone : ∀ s ∈ scraps, Stands ops s.shape s.text [])
    (hmeets : scraps.IsChain Meets) (htail : isBlank tail)
    (hlast : tail = [] ∨ ∀ s ∈ scraps.getLast?, s.shape = .quoted → isClosed s.text = true) :
    Legible ops scraps tail := by
  induction scraps with
  | nil => exact .nil htail
  | cons a scraps ih =>
    have hmore : Legible ops scraps tail := by
      apply ih
      · exact fun s hs => hgaps s (List.mem_cons_of_mem a hs)
      · exact fun s hs => halone s (List.mem_cons_of_mem a hs)
      · exact (List.isChain_cons.mp hmeets).2
      · exact hlast.imp id fun h s hs => h s (List.mem_getLast?_cons hs)
    refine .cons (hgaps a List.mem_cons_self) ?_ hmore
    have ha := halone a List.mem_cons_self
    cases scraps with
    | cons b scraps =>
      rw [flat_cons, List.append_assoc]
      exact ((List.isChain_cons.mp hmeets).1 b rfl).stands tame ha
        (halone b (by simp)) (hgaps b (by simp)) _
    | nil =>
      rw [flat_nil, List.nil_append]
      rcases hlast with rfl | hclosed
      · exact ha
      · by_cases hnil : tail = []
        · rw [hnil]
          exact ha
        · rw [← List.append_nil tail]
          exact stands_blank tame ha htail hnil (hclosed a rfl)

/-- Scraps that are scanned stand alone as well, and all their literals but the last are closed. -/
theorem Legible.lexemes_alone (tame : Operator.Tame ops) {scraps : List Scrap} {tail : List Char}
    (h : Legible ops scraps tail) (afterNewline spaced : Bool) :
    (∀ l ∈ lexemes afterNewline spaced scraps, Stands ops l.shape l.text.toList []) ∧
      (lexemes afterNewline spaced scraps).IsChain
        fun l _ => l.shape = .quoted → isClosed l.text.toList = true := by
  induction h generalizing afterNewline spaced with
  | nil => exact ⟨by simp [lexemes], .nil⟩
  | @cons s scraps tail hgap hstands hmore ih =>
    obtain ⟨halone, hclosed⟩ := ih false false
    constructor
    · intro l hl
      rcases List.mem_cons.mp hl with rfl | hl
      · rw [String.toList_ofList]
        exact hstands.alone tame
      · exact halone l hl
    · refine List.isChain_cons.mpr ⟨?_, hclosed⟩
      intro l hl hquoted
      rw [String.toList_ofList]
      dsimp only at hquoted
      rw [hquoted] at hstands
      apply hstands.closed
      cases hmore with
      | nil => simp [lexemes] at hl
      | @cons s' scraps' _ _ hstands' _ =>
        intro hnil
        have htext := (List.append_eq_nil_iff.mp hnil).1
        rw [flat_cons, List.append_eq_nil_iff, List.append_eq_nil_iff] at htext
        exact hstands'.ne_nil htext.1.2

end Scrap
end SqlLayout
