import SqlLayout.Proofs.Respelling
import SqlLayout.Proofs.Visible

/-! What the comparison of contents sees. The ASCII characters of a content are counted. Printing
never lowers the count, and raises it where a word of the vocabulary was written with characters
beyond ASCII. So contents that are equal leave no such word. -/

namespace SqlLayout
set_option autoImplicit false

/-- The number of ASCII characters that a character adds to a content. -/
def sight (c : Char) : Nat :=
  if Text.isWhitespace c then 0 else (Text.lowerChar c).countP (·.toNat < 128)

/-- The number of ASCII characters of a content, for a text that may begin inside an escape
sequence. -/
def seen (inside : Bool) (text : List Char) : Nat :=
  ((visible inside text).flatMap Text.lowerChar).countP (·.toNat < 128)

section Seen
variable {c : Char} {cs : List Char}

theorem seen_nil (inside : Bool) : seen inside [] = 0 := by
  simp [seen, visible_nil]

theorem seen_escape (inside : Bool) (cs : List Char) :
    seen inside ('\x1b' :: '[' :: cs) = seen true cs := by
  rw [seen, visible_escape, seen]

theorem seen_true (h : ¬opensEscape c cs) : seen true (c :: cs) = seen (!Color.endsEscape c) cs := by
  rw [seen, visible_true h, seen]

theorem seen_false (h : ¬opensEscape c cs) : seen false (c :: cs) = sight c + seen false cs := by
  rw [seen, visible_false h, List.flatMap_append, List.countP_append, seen, sight]
  by_cases hwhite : Text.isWhitespace c = true
  · simp [hwhite]
  · simp [hwhite]

theorem seen_blank {gap : List Char} (hgap : Scrap.isBlank gap) (inside : Bool) (text : List Char) :
    seen inside (gap ++ text) = seen inside text := by
  rw [seen, visible_blank hgap, seen]

theorem seen_true_le (text : List Char) : seen true text ≤ seen false text := by
  induction text with
  | nil => rw [seen_nil, seen_nil]
  | cons c cs ih =>
    by_cases hescape : opensEscape c cs
    · obtain ⟨rfl, hhead⟩ := hescape
      obtain ⟨ds, rfl⟩ := bracket_of_head hhead
      rw [seen_escape, seen_escape]
    · rw [seen_true hescape, seen_false hescape]
      cases Color.endsEscape c with
      | true => simp
      | false =>
        have hle : seen true cs ≤ seen false cs := ih
        simp only [Bool.not_false]
        omega

end Seen

/-- At least `k` more is seen of `y` than of `x`. -/
def Gains (k : Nat) (x y : List Char) : Prop := ∀ inside, seen inside x + k ≤ seen inside y

section Gains
variable {k : Nat} {x y : List Char}

/-- The same character in front keeps the gain, unless it draws a bracket into an escape. -/
theorem Gains.cons (h : Gains k x y) {c : Char}
    (hhead : c = '\x1b' → y.head? = some '[' → x.head? = some '[') : Gains k (c :: x) (c :: y) := by
  intro inside
  have hmono := seen_true_le y
  have hfalse := h false
  have htrue := h true
  by_cases hx : opensEscape c x
  · obtain ⟨rfl, hxhead⟩ := hx
    obtain ⟨xs, rfl⟩ := bracket_of_head hxhead
    have hxs : seen true ('[' :: xs) = seen true xs := seen_true (by simp [opensEscape])
    rw [seen_escape]
    by_cases hy : opensEscape '\x1b' y
    · obtain ⟨ys, rfl⟩ := bracket_of_head hy.2
      have hys : seen true ('[' :: ys) = seen true ys := seen_true (by simp [opensEscape])
      rw [seen_escape]
      omega
    · cases inside with
      | true =>
        have hend : Color.endsEscape '\x1b' = false := by decide
        rw [seen_true hy, hend, Bool.not_false]
        omega
      | false =>
        rw [seen_false hy]
        omega
  · have hy : ¬opensEscape c y := fun hy => hx ⟨hy.1, hhead hy.1 hy.2⟩
    cases inside with
    | true =>
      rw [seen_true hx, seen_true hy]
      exact h _
    | false =>
      rw [seen_false hx, seen_false hy]
      omega

theorem Gains.append (h : Gains k x y) {text : List Char}
    (hlast : text.getLast? = some '\x1b' → y.head? = some '[' → x.head? = some '[') :
    Gains k (text ++ x) (text ++ y) := by
  induction text with
  | nil => exact h
  | cons c cs ih =>
    cases cs with
    | nil => exact h.cons fun hc => hlast (by simp [hc])
    | cons d ds =>
      have hmore := ih (by simpa [List.getLast?_cons_cons] using hlast)
      exact hmore.cons fun _ hhead => by simpa using hhead

theorem Gains.gaps (h : Gains k x y) {gap gap' : List Char} (hgap : Scrap.isBlank gap)
    (hgap' : Scrap.isBlank gap') : Gains k (gap ++ x) (gap' ++ y) := by
  intro inside
  rw [seen_blank hgap, seen_blank hgap']
  exact h inside

end Gains

section Words
variable {k : Nat} {x y : List Char}

/-- Every character of a word of the vocabulary is seen. -/
theorem seen_words {word : List Char} (hword : word.all Text.isWordChar = true) :
    seen false (word ++ y) = word.length + seen false y := by
  induction word with
  | nil => simp
  | cons c word ih =>
    obtain ⟨hc, hmore⟩ : Text.isWordChar c = true ∧ word.all Text.isWordChar = true := by
      simpa using hword
    have hcode := Text.forall_codes (p := fun c => !Text.isWordChar c ||
      (sight c = 1 && c ≠ '\x1b')) (by decide +kernel) (Text.ascii_of_isWordChar hc)
    obtain ⟨hsight, hesc⟩ : sight c = 1 ∧ c ≠ '\x1b' := by simpa [hc] using hcode
    rw [List.cons_append, seen_false fun h => hesc h.1, ih hmore, hsight, List.length_cons]
    omega

theorem seen_plain {word : List Char} (hword : Lexeme.isPlainWord word = true) (inside : Bool) :
    word.length - 1 + seen false y ≤ seen inside (word ++ y) ∧
      word.length + seen false y ≤ seen false (word ++ y) := by
  simp only [Lexeme.isPlainWord, Bool.and_eq_true] at hword
  have hall := seen_words (y := y) hword.2
  cases word with
  | nil => simp at hword
  | cons c word =>
    obtain ⟨hc, hmore⟩ : Text.isWordChar c = true ∧ word.all Text.isWordChar = true := by
      simpa using hword.2
    have halpha : c.isAlpha = true := by simpa using hword.1
    have hcode := Text.forall_codes (p := fun c => !c.isAlpha ||
      (Color.endsEscape c && c ≠ '\x1b')) (by decide +kernel) (Text.ascii_of_isWordChar hc)
    obtain ⟨hend, hesc⟩ : Color.endsEscape c = true ∧ c ≠ '\x1b' := by simpa [halpha] using hcode
    have htrue : seen true (c :: word ++ y) = word.length + seen false y := by
      rw [List.cons_append, seen_true fun h => hesc h.1, hend]
      exact seen_words hmore
    rw [List.length_cons] at hall ⊢
    cases inside with
    | true => omega
    | false => omega

/-- Of a word at most its ASCII characters are seen, and one less inside an escape sequence. -/
theorem seen_word_le {word : List Char} (hesc : '\x1b' ∉ word)
    (hbeyond : ∀ c ∈ word, 128 ≤ c.toNat → sight c = 0) :
    seen false (word ++ x) ≤ word.countP (·.toNat < 128) + seen false x ∧
      seen true (word ++ x) ≤ word.countP (·.toNat < 128) - 1 + seen false x := by
  induction word with
  | nil => simpa using seen_true_le x
  | cons c word ih =>
    obtain ⟨hfalse, htrue⟩ := ih (fun h => hesc (List.mem_cons_of_mem c h))
      fun e he => hbeyond e (List.mem_cons_of_mem c he)
    have hopens : ¬opensEscape c (word ++ x) := fun h => hesc (h.1 ▸ List.mem_cons_self)
    rw [List.cons_append, seen_false hopens, seen_true hopens, List.countP_cons]
    by_cases hascii : c.toNat < 128
    · have hsight : sight c ≤ 1 := by
        unfold sight
        split
        · omega
        · rw [Text.lowerChar_ascii hascii]
          exact List.countP_le_length
      simp only [hascii, decide_true, if_true]
      refine ⟨by omega, ?_⟩
      cases Color.endsEscape c with
      | true =>
        simp only [Bool.not_true]
        omega
      | false =>
        simp only [Bool.not_false]
        omega
    · have hsight := hbeyond c List.mem_cons_self (by omega)
      have hletter : Color.endsEscape c = false := by
        rw [Bool.eq_false_iff]
        exact fun hletter => hascii (ascii_of_endsEscape hletter)
      simp only [hascii, decide_false, Bool.false_eq_true, if_false, hletter, Bool.not_false]
      omega

theorem length_le_flatMap_upperChar (cs : List Char) :
    cs.length ≤ (cs.flatMap Text.upperChar).length := by
  induction cs with
  | nil => simp
  | cons c cs ih =>
    have hpos := Text.length_upperChar_pos c
    rw [List.flatMap_cons, List.length_append, List.length_cons]
    omega

theorem countP_ascii_le (cs : List Char) :
    cs.countP (·.toNat < 128) + (if Text.isAscii cs then 0 else 1) ≤ cs.length := by
  split
  · exact List.countP_le_length
  · rename_i hnot
    have hlt : cs.countP (·.toNat < 128) ≠ cs.length := by
      intro heq
      rw [List.countP_eq_length] at heq
      exact hnot (by simpa [Text.isAscii] using heq)
    have hle : cs.countP (·.toNat < 128) ≤ cs.length := List.countP_le_length
    omega

/-- A character beyond ASCII with a capital in ASCII is not seen. -/
theorem sight_beyond {c : Char} (hc : 128 ≤ c.toNat)
    (hupper : ∀ u ∈ Text.upperChar c, u.toNat < 128) : sight c = 0 := by
  have hlower := Text.lowerChar_beyond hc hupper
  unfold sight
  split
  · rfl
  · rw [List.countP_eq_zero]
    intro l hl
    have hbeyond := hlower l hl
    simp only [decide_eq_true_eq]
    omega

/-- A word that is respelled gains sight when it was not in ASCII. -/
theorem Gains.respell (h : Gains k x y) {text other : String} (hother : isVocabulary other = true)
    (hupper : Text.upper other = Text.upper text) :
    Gains (k + if Text.isAscii text.toList then 0 else 1) (text.toList ++ x) (other.toList ++ y) := by
  have hletters : text.toList.flatMap Text.upperChar = other.toList.map Text.asciiUpper := by
    rw [← Text.toList_upper (isAscii_of_isVocabulary hother), hupper, Text.upper,
      String.toList_ofList]
  simp only [isVocabulary, Bool.and_eq_true, decide_eq_true_eq] at hother
  obtain ⟨hplain, hlong⟩ := hother
  have hascii : ∀ c ∈ text.toList, ∀ u ∈ Text.upperChar c, u.toNat < 128 ∧ u ≠ '\x1b' := by
    intro c hc u hu
    have hmem : u ∈ text.toList.flatMap Text.upperChar := List.mem_flatMap.mpr ⟨c, hc, hu⟩
    rw [hletters] at hmem
    obtain ⟨e, he, rfl⟩ := List.mem_map.mp hmem
    simp only [Lexeme.isPlainWord, Bool.and_eq_true] at hplain
    have hword := (Text.isWordChar_asciiUpper (List.all_eq_true.mp hplain.2 e he)).1
    refine ⟨Text.ascii_of_isWordChar hword, ?_⟩
    intro hesc
    rw [hesc] at hword
    cases hword
  have hesc : '\x1b' ∉ text.toList := fun hmem => (hascii _ hmem '\x1b' (by decide)).2 rfl
  have hbeyond : ∀ c ∈ text.toList, 128 ≤ c.toNat → sight c = 0 := fun c hc hle =>
    sight_beyond hle fun u hu => (hascii c hc u hu).1
  have hlength : text.toList.length ≤ other.toList.length := by
    have hle := length_le_flatMap_upperChar text.toList
    rwa [hletters, List.length_map] at hle
  have hcount := countP_ascii_le text.toList
  obtain ⟨hsource, hsource'⟩ := seen_word_le (x := x) hesc hbeyond
  have hy := h false
  intro inside
  obtain ⟨hprinted, hprinted'⟩ := seen_plain (y := y) hplain inside
  have hone : (if Text.isAscii text.toList then 0 else 1) ≤ 1 := by
    split <;> omega
  cases inside with
  | true => omega
  | false => omega

end Words

namespace Scrap
open Lexeme
variable {ops : List (List Char)}

/-- In a layout no bracket follows an escape character. -/
theorem not_opensEscape {s : Scrap} {scraps : List Scrap} {tail : List Char}
    (hstands : Stands ops s.shape s.text []) (halone : ∀ b ∈ scraps, Stands ops b.shape b.text [])
    (hblank : ∀ b ∈ scraps, isBlank b.gap) (hmeets : ∀ b ∈ scraps.head?, s.Meets b)
    (htail : isBlank tail) (hlast : s.text.getLast? = some '\x1b') :
    (flat scraps ++ tail).head? ≠ some '[' := by
  cases scraps with
  | nil =>
    cases tail with
    | nil => simp
    | cons c tail => simpa using @head_blank (c :: tail) [] htail (List.cons_ne_nil c tail)
  | cons b scraps =>
    rw [flat_cons, List.append_assoc, List.append_assoc]
    by_cases hgap : b.gap = []
    · intro hhead
      have hb := halone b List.mem_cons_self
      obtain ⟨c, cs, htext, -, -⟩ := stands_head hb
      rw [hgap, htext] at hhead
      obtain rfl : c = '[' := by simpa using hhead
      have hshape : b.shape = .mark .openBracket := by
        obtain ⟨c, word, htext', -, -, hcut⟩ := hb
        obtain ⟨rfl, rfl⟩ := List.cons.inj (htext.symm.trans htext')
        rw [cut_mark rfl rfl] at hcut
        exact (Prod.mk.inj hcut).1.symm
      rcases (hmeets b rfl).2 hgap with ⟨kind, hmark⟩ | ⟨-, hcast⟩ | ⟨kind, hmark, hne⟩ |
        ⟨hop, -⟩ | ⟨-, hquoted⟩ | ⟨-, -, hop⟩
      · obtain ⟨e, word, htext', -, -, hcut⟩ := hstands
        rcases cut_cases hcut with ⟨_, h, _⟩ | ⟨_, k, hk, -, rfl, -⟩ | ⟨_, _, h, _⟩ | ⟨_, _, h, _⟩
        · simp [hmark] at h
        · obtain rfl : e = '\x1b' := by simpa [htext'] using hlast
          cases hk
        · simp [hmark] at h
        · simp [hmark] at h
      · rw [hcast] at hlast
        cases hlast
      · rw [hshape] at hmark
        cases hmark
        exact hne rfl
      · simp [hshape] at hop
      · simp [hshape] at hquoted
      · simp [hshape] at hop
    · exact head_blank (hblank b List.mem_cons_self) hgap

theorem exists_gain {source scraps : List Scrap} {before tail : List Char}
    (hsource : Legible ops source before) (afterNewline spaced afterNewline' spaced' : Bool)
    (hrespelt : List.Forall₂ Respelt (lexemes afterNewline spaced source) scraps)
    (halone : ∀ s ∈ scraps, Stands ops s.shape s.text [])
    (hblank : ∀ s ∈ scraps, isBlank s.gap) (hmeets : scraps.IsChain Meets) (htail : isBlank tail) :
    ∃ k, Gains k (flat source ++ before) (flat scraps ++ tail) ∧
      (k = 0 → List.Forall₂ Token.Alike (lexemes afterNewline spaced source)
        (lexemes afterNewline' spaced' scraps)) := by
  induction hsource generalizing scraps afterNewline spaced afterNewline' spaced' with
  | @nil before hbefore =>
    cases hrespelt
    refine ⟨0, ?_, fun _ => .nil⟩
    intro inside
    have hnone : seen inside before = 0 := by
      have hseen := seen_blank hbefore inside []
      rwa [List.append_nil, seen_nil] at hseen
    rw [flat_nil, List.nil_append, hnone]
    omega
  | @cons s source before hgap hstands _ ih =>
    rw [lexemes] at hrespelt ⊢
    obtain ⟨s', scraps, hs', hmore, rfl⟩ := List.forall₂_cons_left_iff.mp hrespelt
    rw [List.isChain_cons] at hmeets
    have halone' := halone s' List.mem_cons_self
    have halone : ∀ b ∈ scraps, Stands ops b.shape b.text [] :=
      fun b hb => halone b (List.mem_cons_of_mem s' hb)
    have hblank' := hblank s' List.mem_cons_self
    have hblank : ∀ b ∈ scraps, isBlank b.gap := fun b hb => hblank b (List.mem_cons_of_mem s' hb)
    obtain ⟨k, hgains, halike⟩ := ih false false false false hmore halone hblank hmeets.2
    rw [flat_cons, flat_cons, List.append_assoc, List.append_assoc, List.append_assoc,
      List.append_assoc]
    rcases hs'.text with htext | ⟨hword, hvocabulary, hupper⟩
    · rw [String.toList_ofList] at htext
      refine ⟨k, ?_, ?_⟩
      · apply Gains.gaps _ hgap hblank'
        rw [htext]
        apply hgains.append
        intro hlast hhead
        rw [← htext] at hlast
        exact absurd hhead (not_opensEscape halone' halone hblank hmeets.1 htail hlast)
      · intro hk
        exact .cons ⟨hs'.shape, fun _ => by simp [htext]⟩ (halike hk)
    · refine ⟨k + if Text.isAscii s.text then 0 else 1, ?_, ?_⟩
      · have hstep := hgains.respell hvocabulary hupper
        rw [String.toList_ofList, String.toList_ofList] at hstep
        exact hstep.gaps hgap hblank'
      · intro hk
        have hascii : Text.isAscii s.text = true := by
          by_contra hnot
          rw [if_neg hnot] at hk
          omega
        refine .cons ⟨hs'.shape, fun _ => ?_⟩ (halike (by omega))
        have hletters := congrArg String.toList hupper
        rwa [Text.toList_upper (isAscii_of_isVocabulary hvocabulary),
          Text.toList_upper (by rwa [String.toList_ofList])] at hletters

/-- Equal contents leave no word of the vocabulary that was written beyond ASCII. -/
theorem alike_of_content {source scraps : List Scrap} {before tail : List Char}
    (hsource : Legible ops source before) (afterNewline spaced afterNewline' spaced' : Bool)
    (hrespelt : List.Forall₂ Respelt (lexemes afterNewline spaced source) scraps)
    (halone : ∀ s ∈ scraps, Stands ops s.shape s.text [])
    (hblank : ∀ s ∈ scraps, isBlank s.gap) (hmeets : scraps.IsChain Meets) (htail : isBlank tail)
    (hcontent : content (flat source ++ before) = content (flat scraps ++ tail)) :
    List.Forall₂ Token.Alike (lexemes afterNewline spaced source)
      (lexemes afterNewline' spaced' scraps) := by
  obtain ⟨k, hgains, halike⟩ := exists_gain hsource afterNewline spaced afterNewline' spaced'
    hrespelt halone hblank hmeets htail
  apply halike
  have hseen : seen false (flat source ++ before) = seen false (flat scraps ++ tail) :=
    congrArg (List.countP _) hcontent
  have hle := hgains false
  omega

end Scrap
end SqlLayout
