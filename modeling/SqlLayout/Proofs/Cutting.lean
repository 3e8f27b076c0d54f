import SqlLayout.Lexeme
import SqlLayout.Proofs.Literal
import SqlLayout.Proofs.LongestMatch

/-! Where a lexeme ends, and what its end depends on. The operators are assumed to be tame. Then a
lexeme that is cut from a text is cut in the same way when it stands alone, and again when other text
follows, as long as that text begins with a separator or with a cast. -/

namespace SqlLayout
set_option autoImplicit false

namespace Text

/-- ASCII letters, digits and the underscore. -/
def isWordChar (c : Char) : Bool := c.isAlphanum || c = '_'

theorem forall_codes {p : Char → Bool} (h : ∀ n < 128, p (Char.ofNat n) = true) {c : Char}
    (hc : c.toNat < 128) : p c = true := by
  rw [← Char.ofNat_toNat c]
  exact h c.toNat hc

theorem ascii_of_isDigit {c : Char} (h : c.isDigit = true) : c.toNat < 128 := by
  simp only [Char.isDigit, Bool.and_eq_true, decide_eq_true_eq, ge_iff_le,
    UInt32.le_iff_toNat_le] at h
  have hval : c.toNat = c.val.toNat := rfl
  have hnine : '9'.val.toNat = 57 := rfl
  omega

theorem isAlpha_iff {c : Char} : c.isAlpha = true ↔ c.isUpper = true ∨ c.isLower = true :=
  Bool.or_eq_true_iff

theorem ascii_of_isAlpha {c : Char} (h : c.isAlpha = true) : c.toNat < 128 := by
  have hval : c.toNat = c.val.toNat := rfl
  rcases isAlpha_iff.mp h with h | h
  · have hle := UInt32.le_iff_toNat_le.mp (of_decide_eq_true h).2
    have hupper : 'Z'.val.toNat = 90 := rfl
    omega
  · have hle := UInt32.le_iff_toNat_le.mp (of_decide_eq_true (Bool.and_eq_true_iff.mp h).2)
    have hlower : 'z'.val.toNat = 122 := rfl
    omega

theorem ascii_of_isWordChar {c : Char} (h : isWordChar c = true) : c.toNat < 128 := by
  simp only [isWordChar, Char.isAlphanum, Bool.or_eq_true, decide_eq_true_eq] at h
  rcases h with (h | h) | rfl
  · exact ascii_of_isAlpha h
  · exact ascii_of_isDigit h
  · decide

end Text

namespace Operator

/-- Operators hold no separators and no word characters, and a colon stands behind the first
character of an operator only in the cast. -/
structure Tame (ops : List (List Char)) : Prop where
  bare : ∀ op ∈ ops, ∀ c ∈ op, Lexeme.isSeparator c = false ∧ Text.isWordChar c = false
  colon : ∀ op ∈ ops, ':' ∈ op.tail → op = [':', ':']
  lone : [':'] ∉ ops
  cast : [':', ':'] ∈ ops
  ampersand : ['&'] ∈ ops

end Operator

namespace Lexeme

/-- The text `rest` may follow `before` without being drawn into its last lexeme. -/
def Clean (before rest : List Char) : Prop :=
  rest = [] ∨ (∃ c cs, rest = c :: cs ∧ isSeparator c = true) ∨
    (∃ cs, rest = ':' :: ':' :: cs ∧ before.getLast? ≠ some ':')

theorem Clean.of_separator {before rest : List Char} {c : Char} (h : isSeparator c = true) :
    Clean before (c :: rest) := Or.inr (Or.inl ⟨c, rest, rfl, h⟩)

theorem Clean.tail {c : Char} {before rest : List Char} (h : Clean (c :: before) rest) :
    Clean before rest := by
  rcases h with rfl | h | ⟨cs, rfl, hlast⟩
  · exact Or.inl rfl
  · exact Or.inr (Or.inl h)
  · refine Or.inr (Or.inr ⟨cs, rfl, ?_⟩)
    cases before with
    | nil => simp
    | cons d ds => simpa using hlast

theorem isWordChar_plain {c : Char} (h : Text.isWordChar c = true) :
    isSeparator c = false ∧ c ≠ '-' ∧ c ≠ '/' ∧ c ≠ '*' ∧ c ≠ '+' ∧ c ≠ ':' ∧ c ≠ '.' := by
  have hc := Text.forall_codes (p := fun c => !Text.isWordChar c ||
    (!isSeparator c && !(['-', '/', '*', '+', ':', '.'].contains c))) (by decide +kernel)
    (Text.ascii_of_isWordChar h)
  simpa [h, and_assoc] using hc

theorem isDigit_of_separator {c : Char} (h : isSeparator c = true) : c.isDigit = false := by
  rw [Bool.eq_false_iff]
  intro hdigit
  have hword : Text.isWordChar c = true := by simp [Text.isWordChar, Char.isAlphanum, hdigit]
  rw [(isWordChar_plain hword).1] at h
  cases h

/-- What may follow cleanly begins with no digit, and does not turn a sign or a slash into the
opening of a comment. -/
theorem Clean.head {before rest : List Char} (h : Clean before rest) :
    rest.head?.any Char.isDigit = false ∧ rest.head? ≠ some '-' ∧ rest.head? ≠ some '*' := by
  rcases h with rfl | ⟨c, cs, rfl, hc⟩ | ⟨cs, rfl, _⟩
  · simp
  · refine ⟨by simpa using isDigit_of_separator hc, ?_, ?_⟩
    · rintro ⟨⟩
      revert hc
      decide
    · rintro ⟨⟩
      revert hc
      decide
  · simp [show Char.isDigit ':' = false from rfl]

section Extending
variable {ops : List (List Char)} (tame : Operator.Tame ops)
include tame

theorem op_within {op x rest : List Char} (hop : op ∈ ops) (hx : x ≠ []) (hclean : Clean x rest)
    (h : op <+: x ++ rest) : op <+: x := by
  rcases List.prefix_or_prefix_of_prefix h (List.prefix_append x rest) with hle | ⟨z, rfl⟩
  · exact hle
  · have hz : z <+: rest := (List.prefix_append_right_inj x).mp h
    cases z with
    | nil => simp
    | cons d z =>
      exfalso
      rcases hclean with rfl | ⟨c, cs, rfl, hc⟩ | ⟨cs, rfl, hlast⟩
      · simp at hz
      · obtain ⟨rfl, _⟩ := List.cons_prefix_cons.mp hz
        simp [(tame.bare _ hop d (by simp)).1] at hc
      · obtain ⟨rfl, _⟩ := List.cons_prefix_cons.mp hz
        obtain ⟨a, x, rfl⟩ := List.exists_cons_of_ne_nil hx
        have hcast := tame.colon _ hop (by simp)
        cases x with
        | nil => simp_all
        | cons b x => simp at hcast

theorem longest_extend {x rest : List Char} (hx : x ≠ []) (hclean : Clean x rest) :
    Operator.longest ops (x ++ rest) = Operator.longest ops x := by
  apply Operator.longest_congr
  intro op hop
  constructor
  · exact op_within tame hop hx hclean
  · exact fun h => h.trans (List.prefix_append x rest)

theorem longest_cast_pos (cs : List Char) : Operator.longest ops (':' :: ':' :: cs) ≠ 0 := by
  have hle := Operator.length_le_longest tame.cast
    (show [':', ':'] <+: ':' :: ':' :: cs from ⟨cs, rfl⟩)
  simp only [List.length_cons, List.length_nil] at hle
  omega

end Extending

theorem startsComment_extend {c : Char} {cs rest : List Char} (hclean : Clean (c :: cs) rest) :
    startsComment c (cs ++ rest) = startsComment c cs := by
  cases cs with
  | nil => simp [startsComment, hclean.head.2.1, hclean.head.2.2]
  | cons d ds => rfl

section Words
variable {ops : List (List Char)} (tame : Operator.Tame ops)
include tame

theorem continues_extend {backwards : List Char} {c : Char} {cs rest : List Char}
    (hclean : Clean (c :: cs) rest) :
    continues ops backwards c (cs ++ rest) = continues ops backwards c cs := by
  have hdigit : (cs ++ rest).head?.any Char.isDigit = cs.head?.any Char.isDigit := by
    cases cs with
    | nil => simp [hclean.head.1]
    | cons d ds => rfl
  unfold continues
  rw [hdigit, startsComment_extend hclean,
    show c :: (cs ++ rest) = (c :: cs) ++ rest from rfl,
    longest_extend tame (List.cons_ne_nil c cs) hclean]

theorem splitWord_clean (backwards : List Char) {before rest : List Char}
    (hclean : Clean before rest) : splitWord ops backwards rest = ([], rest) := by
  rcases hclean with rfl | ⟨c, cs, rfl, hc⟩ | ⟨cs, rfl, _⟩
  · rfl
  · simp [splitWord, continues, hc]
  · simp [splitWord, continues, longest_cast_pos tame]

theorem splitWord_extend {backwards cs rest : List Char} (hclean : Clean cs rest) :
    splitWord ops backwards (cs ++ rest) =
      ((splitWord ops backwards cs).1, (splitWord ops backwards cs).2 ++ rest) := by
  induction cs generalizing backwards with
  | nil => exact splitWord_clean tame backwards hclean
  | cons c cs ih =>
    rw [List.cons_append, splitWord, splitWord, continues_extend tame hclean]
    by_cases hgo : continues ops backwards c cs = true
    · simp [hgo, ih hclean.tail]
    · simp [hgo]

theorem longest_word_char {c : Char} (cs : List Char) (hc : Text.isWordChar c = true) :
    Operator.longest ops (c :: cs) = 0 := by
  rw [Operator.longest_eq_zero_iff]
  intro op hop h
  cases op with
  | nil => rfl
  | cons d ds =>
    obtain ⟨rfl, _⟩ := List.cons_prefix_cons.mp h
    have hbare := (tame.bare _ hop d (by simp)).2
    rw [hc] at hbare
    cases hbare

theorem continues_word_char (backwards : List Char) {c : Char} (cs : List Char)
    (hc : Text.isWordChar c = true) : continues ops backwards c cs = true := by
  obtain ⟨hsep, hminus, hslash, _⟩ := isWordChar_plain hc
  unfold continues
  simp [hsep, startsComment, hminus, hslash, longest_word_char tame cs hc]

/-- Without what follows a word, the word is still read to its end. -/
theorem splitWord_alone {backwards word rest : List Char}
    (h : splitWord ops backwards (word ++ rest) = (word, rest)) :
    splitWord ops backwards word = (word, []) := by
  induction word generalizing backwards with
  | nil => rfl
  | cons c word ih =>
    rw [List.cons_append, splitWord] at h
    by_cases hgo : continues ops backwards c (word ++ rest) = true
    · rw [if_pos hgo] at h
      obtain ⟨hword, hrest⟩ := Prod.mk.inj h
      have hword : (splitWord ops (c :: backwards) (word ++ rest)).1 = word := by simpa using hword
      have hsplit : splitWord ops (c :: backwards) (word ++ rest) = (word, rest) :=
        Prod.ext hword hrest
      have hgo' : continues ops backwards c word = true := by
        cases word with
        | cons d ds =>
          unfold continues at hgo ⊢
          have hzero : Operator.longest ops (c :: (d :: ds ++ rest)) = 0 →
              Operator.longest ops (c :: d :: ds) = 0 := by
            simp only [Operator.longest_eq_zero_iff]
            intro hall op hop hop'
            exact hall op hop (hop'.trans ⟨rest, rfl⟩)
          grind [startsComment]
        | nil =>
          unfold continues at hgo ⊢
          have hzero : Operator.longest ops (c :: ([] ++ rest)) = 0 →
              Operator.longest ops [c] = 0 := by
            simp only [Operator.longest_eq_zero_iff]
            intro hall op hop hop'
            exact hall op hop (hop'.trans ⟨rest, rfl⟩)
          -- a sign would need a digit behind it, and that digit would belong to the word
          have hnodigit : rest.head?.any Char.isDigit = false := by
            cases rest with
            | nil => rfl
            | cons d ds =>
              rw [List.head?_cons, Option.any_some, Bool.eq_false_iff]
              intro hd
              have hword : Text.isWordChar d = true := by
                simp [Text.isWordChar, Char.isAlphanum, hd]
              rw [List.nil_append, splitWord, if_pos (continues_word_char tame _ ds hword)]
                at hsplit
              simp at hsplit
          grind [startsComment]
      rw [splitWord, if_pos hgo', ih hsplit]
    · rw [if_neg hgo] at h
      simp at h

end Words

theorem cut_cases {ops : List (List Char)} {c : Char} {cs word rest : List Char} {shape : Shape}
    (h : cut ops c cs = (shape, word, rest)) :
    (isQuote c = true ∧ shape = .quoted ∧ Quoted.split c cs = (word, rest)) ∨
    (isQuote c = false ∧ ∃ kind, markKind? c = some kind ∧ shape = .mark kind ∧ word = [] ∧
      rest = cs) ∨
    (isQuote c = false ∧ markKind? c = none ∧ shape = .operator ∧
      Operator.longest ops (c :: cs) = word.length + 1 ∧ cs = word ++ rest) ∨
    (isQuote c = false ∧ markKind? c = none ∧ shape = .word ∧
      Operator.longest ops (c :: cs) = 0 ∧ splitWord ops [c] cs = (word, rest)) := by
  unfold cut at h
  by_cases hquote : isQuote c = true
  · rw [if_pos hquote] at h
    obtain ⟨rfl, hsplit⟩ := Prod.mk.inj h
    exact Or.inl ⟨hquote, rfl, hsplit⟩
  · rw [if_neg hquote] at h
    have hquote : isQuote c = false := by simpa using hquote
    cases hmark : markKind? c with
    | some kind =>
      rw [hmark] at h
      obtain ⟨rfl, rfl, rfl⟩ := by simpa using h
      exact Or.inr (Or.inl ⟨hquote, kind, rfl, rfl, rfl, rfl⟩)
    | none =>
      rw [hmark] at h
      cases hlongest : Operator.longest ops (c :: cs) with
      | zero =>
        rw [hlongest] at h
        obtain ⟨rfl, hsplit⟩ := Prod.mk.inj h
        exact Or.inr (Or.inr (Or.inr ⟨hquote, rfl, rfl, rfl, hsplit⟩))
      | succ n =>
        rw [hlongest] at h
        obtain ⟨rfl, rfl, rfl⟩ := by simpa using h
        have hle := Operator.longest_le_length ops (c :: cs)
        rw [hlongest, List.length_cons] at hle
        refine Or.inr (Or.inr (Or.inl ⟨hquote, rfl, rfl, ?_, ?_⟩))
        · rw [List.length_take]
          omega
        · exact (List.take_append_drop n cs).symm

section Cut
variable {ops : List (List Char)}

theorem cut_quoted {c : Char} {cs word rest : List Char} (hc : isQuote c = true)
    (h : Quoted.split c cs = (word, rest)) : cut ops c cs = (.quoted, word, rest) := by
  unfold cut
  rw [if_pos hc, h]

theorem cut_mark {c : Char} {kind : TokenKind} (hc : isQuote c = false)
    (hmark : markKind? c = some kind) (cs : List Char) : cut ops c cs = (.mark kind, [], cs) := by
  unfold cut
  simp [hc, hmark]

theorem cut_operator {c : Char} {word rest : List Char} (hc : isQuote c = false)
    (hmark : markKind? c = none)
    (h : Operator.longest ops (c :: (word ++ rest)) = word.length + 1) :
    cut ops c (word ++ rest) = (.operator, word, rest) := by
  unfold cut
  simp [hc, hmark, h]

theorem cut_word {c : Char} {cs word rest : List Char} (hc : isQuote c = false)
    (hmark : markKind? c = none) (hzero : Operator.longest ops (c :: cs) = 0)
    (h : splitWord ops [c] cs = (word, rest)) : cut ops c cs = (.word, word, rest) := by
  unfold cut
  simp [hc, hmark, hzero, h]

/-- Clean text behind a lexeme leaves the cut as it is. A literal must be closed, and the text may
not go on with its quote. -/
theorem cut_extend (tame : Operator.Tame ops) {c : Char} {cs word rest more : List Char}
    {shape : Shape} (h : cut ops c cs = (shape, word, rest)) (hclean : Clean (c :: cs) more)
    (hquote : shape = .quoted → Quoted.closes c cs = true ∧ (rest = [] → more.head? ≠ some c)) :
    cut ops c (cs ++ more) = (shape, word, rest ++ more) := by
  rcases cut_cases h with ⟨hc, rfl, hsplit⟩ | ⟨hc, kind, hmark, rfl, rfl, rfl⟩ |
    ⟨hc, hmark, rfl, hlongest, rfl⟩ | ⟨hc, hmark, rfl, hzero, hsplit⟩
  · obtain ⟨hclosed, hhead⟩ := hquote rfl
    apply cut_quoted hc
    rw [Quoted.split_extend hclosed (by rw [hsplit]; exact hhead), hsplit]
  · exact cut_mark hc hmark _
  · rw [List.append_assoc]
    apply cut_operator hc hmark
    rw [← List.append_assoc, ← List.cons_append, longest_extend tame (by simp) hclean, hlongest]
  · apply cut_word hc hmark
    · rw [← List.cons_append, longest_extend tame (by simp) hclean, hzero]
    · rw [splitWord_extend tame hclean.tail, hsplit]

theorem cut_alone (tame : Operator.Tame ops) {c : Char} {word rest : List Char} {shape : Shape}
    (h : cut ops c (word ++ rest) = (shape, word, rest)) : cut ops c word = (shape, word, []) := by
  rcases cut_cases h with ⟨hc, rfl, hsplit⟩ | ⟨hc, kind, hmark, rfl, rfl, -⟩ |
    ⟨hc, hmark, rfl, hlongest, -⟩ | ⟨hc, hmark, rfl, hzero, hsplit⟩
  · apply cut_quoted hc
    have hbody := (Quoted.split_body c (word ++ rest)).1
    rwa [hsplit] at hbody
  · exact cut_mark hc hmark []
  · have hmem := @Operator.take_longest_mem ops (c :: (word ++ rest)) (by omega)
    rw [hlongest] at hmem
    have hlower := Operator.length_le_longest hmem
      (show List.take (word.length + 1) (c :: (word ++ rest)) <+: c :: word by simp)
    have hupper := Operator.longest_le_length ops (c :: word)
    have hword : Operator.longest ops (c :: (word ++ [])) = word.length + 1 := by
      simp at hlower hupper ⊢
      omega
    simpa using cut_operator hc hmark hword
  · apply cut_word hc hmark
    · rw [Operator.longest_eq_zero_iff] at hzero ⊢
      intro op hop hbegins
      exact hzero op hop (hbegins.trans ⟨rest, rfl⟩)
    · exact splitWord_alone tame hsplit

end Cut

end Lexeme
end SqlLayout
